import MallocSurvey.Tlsf.System

/-! # What a call does to the heap

One lemma for each call. -/

namespace MallocSurvey.Tlsf

open Library Control

/-- A request is rejected. -/
theorem adjust_eq_zero_iff {size : Nat} :
    adjustRequestSize .bits64 size 8 = 0 ↔ size = 0 ∨ 2 ^ 32 ≤ size := by
  constructor
  · intro isZero
    by_contra accepted
    obtain ⟨nonzero, small⟩ := not_or.mp accepted
    have least := (adjust_spec nonzero (Nat.lt_of_not_le small)).2.1
    omega
  · exact fun rejected => adjust_rejected rejected 8

theorem adjust_accepted {size : Nat} (accepted : adjustRequestSize .bits64 size 8 ≠ 0) :
    (size ≠ 0 ∧ size < 2 ^ 32) ∧ adjustRequestSize .bits64 size 8 % 8 = 0 ∧
      24 ≤ adjustRequestSize .bits64 size 8 ∧ size ≤ adjustRequestSize .bits64 size 8 ∧
      adjustRequestSize .bits64 size 8 ≤ 2 ^ 32 := by
  obtain ⟨nonzero, small⟩ := not_or.mp (adjust_eq_zero_iff.not.mp accepted)
  have small := Nat.lt_of_not_le small
  exact ⟨⟨nonzero, small⟩, adjust_spec nonzero small⟩

theorem searchable_adjust {size : Nat} (accepted : adjustRequestSize .bits64 size 8 ≠ 0)
    (inTables : adjustRequestSize .bits64 size 8 ≤ largestRequest .bits64) :
    Searchable (adjustRequestSize .bits64 size 8) ∧ 0 < size ∧
      size ≤ adjustRequestSize .bits64 size 8 := by
  obtain ⟨⟨nonzero, _⟩, aligned, least, holds, _⟩ := adjust_accepted accepted
  exact ⟨⟨aligned, least, inTables⟩, Nat.pos_of_ne_zero nonzero, holds⟩

theorem alignedSize_spec {power size : Nat} (bounded : power < 64)
    (accepted : alignedSize (2 ^ power) size ≠ 0) :
    alignedSize (2 ^ power) size % 8 = 0 ∧ 24 ≤ alignedSize (2 ^ power) size := by
  have adjusted : adjustRequestSize .bits64 size 8 = 0 ∨
      adjustRequestSize .bits64 size 8 % 8 = 0 ∧ 24 ≤ adjustRequestSize .bits64 size 8 ∧
        adjustRequestSize .bits64 size 8 ≤ 2 ^ 32 := by
    by_cases isZero : adjustRequestSize .bits64 size 8 = 0
    · exact .inl isZero
    · obtain ⟨_, aligned, least, _, most⟩ := adjust_accepted isZero
      exact .inr ⟨aligned, least, most⟩
  unfold alignedSize at *
  rw [alignSize_bits64] at *
  by_cases small : 2 ^ power ≤ 8
  · rw [if_pos small] at *
    omega
  · rw [if_neg small] at *
    have powerGe : 4 ≤ power := by
      by_contra below
      exact small (Nat.pow_le_pow_right (show 0 < 2 by decide) (show power ≤ 3 by omega))
    obtain ⟨_, room, aligned⟩ := sizeWithGap_spec powerGe bounded (by omega) accepted
    exact ⟨aligned, by omega⟩

theorem alignedSize_le {power size : Nat} (bounded : power < 64) :
    alignedSize (2 ^ power) size ≤ 2 ^ 63 := by
  have bound : ∀ request power, power < 64 → 3 ≤ power →
      adjustRequestSize .bits64 request (2 ^ power) ≤ 2 ^ 63 := by
    intro request power bounded atLeast
    by_cases accepted : adjustRequestSize .bits64 request (2 ^ power) = 0
    · omega
    · exact (adjustRequestSize_spec accepted atLeast bounded).2.2.2
  unfold alignedSize
  rw [alignSize_bits64]
  split
  · exact bound size 3 (by decide) (by decide)
  · next large =>
      refine bound _ power bounded ?_
      by_contra below
      exact large (Nat.pow_le_pow_right (show 0 < 2 by decide) (show power ≤ 3 by omega))

/-- A class behind the tables is not searched. -/
theorem blockLocateFree_outside {control : Control} {size : Nat}
    (outside : largestRequest .bits64 < size) (bounded : size ≤ 2 ^ 63) :
    control.blockLocateFree size = none := by
  have notIn : ¬ InTables .bits64 (mappingSearch .bits64 size) := by
    rw [inTables_mappingSearch bounded]
    omega
  unfold blockLocateFree
  rw [if_pos (show size ≠ 0 by omega)]
  cases isIndex : mappingSearch .bits64 size with
  | none => rfl
  | some index =>
      have notIndexed : ¬ Indexed index := by
        intro isIndexed
        exact notIn ⟨index.1, index.2, isIndex, isIndexed.1, isIndexed.2⟩
      unfold searchSuitableBlock
      rw [some_bind, guard, if_neg notIndexed]
      rfl

namespace State

variable {state : State} {pieces before after middle lead : List Piece} {piece target : Piece}
  {lists newLists : Nat × Nat → List Nat} {control : Control} {ptr size wanted power : Nat}

/-! ## Handing out -/

theorem Kept.granted (kept : state.Kept pieces lists) {newPieces : List Piece}
    (newRep : Rep state.pools control newPieces newLists []) (coalesced : Coalesced newPieces)
    (handedOut : HandedOut ((ptr, size) :: state.handed) newPieces) (positive : 0 < size) :
    (state.granted control (ptr + 16) size).Kept newPieces newLists where
  rep := newRep
  coalesced := coalesced
  handedOut := handedOut
  positive := by
    intro used member
    rcases List.mem_cons.mp member with isNew | isOld
    · rw [isNew]
      exact positive
    · exact kept.positive used isOld
  nonempty := kept.nonempty

/-- A held block is as large as requested. -/
theorem Inv.size_le (inv : state.Inv) {used : Nat × Nat} (held : used ∈ state.live) :
    used.2 ≤ state.control.blockSize used.1 := by
  obtain ⟨pieces, lists, kept⟩ := inv
  obtain ⟨before, piece, after, isSplit, isPtr, _, large, _⟩ := kept.split held
  subst isSplit
  rw [← isPtr, kept.rep.blockSize (by simp)]
  exact large

theorem Inv.granted_size_le (inv : (state.granted control ptr size).Inv) (notNull : ptr ≠ 0) :
    size ≤ control.blockSize (blockFromPtr ptr) := by
  have held : (blockFromPtr ptr, size) ∈ (state.granted control ptr size).live := by
    unfold State.granted
    rw [if_neg notNull]
    exact List.mem_cons_self
  exact inv.size_le held

/-- `tlsf_malloc` -/
theorem malloc_spec (inv : state.Inv)
    (inTables : adjustRequestSize .bits64 size 8 ≤ largestRequest .bits64) :
    ∃ control ptr, state.control.tlsfMalloc size = some (control, ptr) ∧
      (ptr = 0 → control = state.control) ∧ (state.granted control ptr size).Inv := by
  by_cases isZero : adjustRequestSize .bits64 size 8 = 0
  · refine ⟨state.control, 0, ?_, fun _ => rfl, inv⟩
    unfold tlsfMalloc
    rw [alignSize_bits64, isZero]
    rfl
  · obtain ⟨pieces, lists, kept⟩ := inv
    obtain ⟨searchable, positive, fits⟩ := searchable_adjust isZero inTables
    rcases tlsfMalloc_spec kept.rep searchable with ⟨isNone, _⟩ |
      ⟨new, newLists, before, piece, after, middle, isSplit, isFree, obtained, isServed, newRep, _⟩
    · exact ⟨state.control, 0, isNone, fun _ => rfl, pieces, lists, kept⟩
    · subst isSplit
      have coalesced := Coalesced.obtained kept.coalesced isFree obtained
      have handedOut := kept.handedOut.obtained isFree obtained fits
      rw [List.append_assoc] at coalesced handedOut
      have newKept := kept.granted newRep coalesced handedOut positive
      exact ⟨new, piece.ptr + 16, isServed, fun isNull => absurd isNull (by omega), _, _, newKept⟩

/-- Two free blocks beside each other are not left behind. -/
theorem coalesced_led (coalesced : Coalesced (before ++ piece :: after))
    (isFree : piece.free = true) (isCut : LeadingCut piece target lead) (targetFree : target.free = true)
    (obtained : Obtained 8 wanted target middle) :
    Coalesced ((before ++ lead) ++ (middle ++ after)) := by
  obtain ⟨lastUsed, firstUsed⟩ := neighbours_used coalesced isFree
  obtain ⟨beforeCoalesced, rest, _⟩ := List.isChain_append.mp coalesced
  have targetCoalesced : Coalesced ([] ++ target :: after) := by
    refine List.isChain_cons.mpr ⟨?_, (List.isChain_cons.mp rest).2⟩
    rintro right isFirst ⟨_, rightFree⟩
    rw [firstUsed right isFirst] at rightFree
    cases rightFree
  have restCoalesced := Coalesced.obtained targetCoalesced targetFree obtained
  rw [List.nil_append] at restCoalesced
  have headUsed : ∀ right ∈ (middle ++ after).head?, right.free = false := by
    intro right isFirst
    rcases obtained.2 with isWhole | ⟨_, rem, isSplit⟩
    · rw [isWhole] at isFirst
      cases isFirst
      rfl
    · rw [isSplit] at isFirst
      cases isFirst
      rfl
  have leadCoalesced : Coalesced (before ++ lead) := by
    rcases isCut with ⟨isNil, _⟩ | ⟨_, _, isLead, _⟩
    · rwa [isNil, List.append_nil]
    · rw [isLead]
      refine List.isChain_append.mpr ⟨beforeCoalesced, .singleton _, ?_⟩
      rintro left isLast _ _ ⟨leftFree, _⟩
      rw [lastUsed left isLast] at leftFree
      cases leftFree
  refine List.isChain_append.mpr ⟨leadCoalesced, restCoalesced, ?_⟩
  rintro _ _ right isFirst ⟨_, rightFree⟩
  rw [headUsed right isFirst] at rightFree
  cases rightFree

theorem usedPieces_led (isFree : piece.free = true) (isCut : LeadingCut piece target lead)
    (targetFree : target.free = true) : usedPieces ((before ++ lead) ++ target :: after) =
      usedPieces (before ++ piece :: after) := by
  rw [usedPieces_append, usedPieces_append, usedPieces_append, usedPieces_cons_free isFree,
    usedPieces_cons_free targetFree]
  rcases isCut with ⟨isNil, _⟩ | ⟨wanted, _, isLead, _⟩
  · rw [isNil]
    exact congrArg (· ++ _) (List.append_nil _)
  · have isNil : usedPieces lead = [] := by
      rw [isLead]
      exact usedPieces_cons_free (show (shortened piece wanted).free = true from isFree) []
    rw [isNil, List.append_nil]

theorem targetFree_of_cut (isFree : piece.free = true) (isCut : LeadingCut piece target lead) :
    target.free = true := by
  rcases isCut with ⟨_, isTarget⟩ | ⟨_, _, _, isTarget⟩
  · rw [isTarget]
    exact isFree
  · rw [isTarget]
    rfl


/-- No list has a block that serves the size. -/
def NothingServes (control : Control) (size : Nat) : Prop :=
  ∀ index, Indexed index → Serves (targetClass size) index → control.blocks index = control.address

theorem nothingServes_iff (rep : Rep state.pools control pieces lists []) :
    NothingServes control size ↔ NoneFits pieces size := by
  constructor
  · intro nothing piece member isFree serves
    have isNull := nothing _ (rep.indexed member).1 serves
    have isListed := (rep.listed (classOf piece.len) piece.ptr).mpr
      ⟨piece, member, rfl, isFree, List.not_mem_nil, rfl⟩
    rw [rep.segregated.head_eq_null_iff.mp isNull] at isListed
    cases isListed
  · intro noneFits index _ serves
    refine rep.segregated.head_eq_null_iff.mpr (List.eq_nil_iff_forall_not_mem.mpr ?_)
    intro node isListed
    obtain ⟨piece, member, _, isFree, _, isClass⟩ := (rep.listed index node).mp isListed
    exact noneFits piece member isFree (isClass ▸ serves)

/-- Nothing is done if no block is searched for or found. -/
theorem memalign_null {align : Nat}
    (notFound : control.blockLocateFree (alignedSize align size) = some (control, 0)) :
    control.tlsfMemalign align size = some (control, 0) := by
  unfold tlsfMemalign
  change (control.blockLocateFree (alignedSize align size) >>= _) = _
  rw [notFound]
  rfl

/-- `tlsf_memalign` -/
theorem memalign_spec (inv : state.Inv) (bounded : power < 64)
    (inTables : alignedSize (2 ^ power) size ≤ largestRequest .bits64)
    (meets : adjustRequestSize .bits64 size 8 ≠ 0 ∨ alignedSize (2 ^ power) size = 0 ∨
      NothingServes state.control (alignedSize (2 ^ power) size)) :
    ∃ control ptr, state.control.tlsfMemalign (2 ^ power) size = some (control, ptr) ∧
      (ptr = 0 → control = state.control) ∧ ptr % 2 ^ power = 0 ∧
      (state.granted control ptr size).Inv := by
  by_cases isZero : alignedSize (2 ^ power) size = 0
  · refine ⟨state.control, 0, memalign_null ?_, fun _ => rfl, Nat.zero_mod _, inv⟩
    rw [isZero]
    rfl
  · obtain ⟨aligned, least⟩ := alignedSize_spec bounded isZero
    have searchable : Searchable (alignedSize (2 ^ power) size) := ⟨aligned, least, inTables⟩
    obtain ⟨pieces, lists, kept⟩ := inv
    by_cases rejected : adjustRequestSize .bits64 size 8 = 0
    · have nothing := (meets.resolve_left (not_not.mpr rejected)).resolve_left isZero
      have noneFits := (nothingServes_iff kept.rep).mp nothing
      rcases blockLocateFree_spec kept.rep searchable with ⟨isNone, _⟩ |
        ⟨_, _, piece, member, isFree, _, serves, _⟩
      · exact ⟨state.control, 0, memalign_null isNone, fun _ => rfl, Nat.zero_mod _, _, _, kept⟩
      · exact absurd serves (noneFits piece member isFree)
    · obtain ⟨⟨nonzero, small⟩, _, _, fits, _⟩ := adjust_accepted rejected
      rcases tlsfMemalign_spec kept.rep bounded nonzero small searchable with ⟨isNone, _⟩ |
        ⟨new, newLists, before, piece, after, lead, target, middle, isSplit, isFree, isCut,
          obtained, multiple, isServed, newRep, _⟩
      · exact ⟨state.control, 0, isNone, fun _ => rfl, Nat.zero_mod _, _, _, kept⟩
      · subst isSplit
        have targetFree := targetFree_of_cut isFree isCut
        have coalesced := coalesced_led kept.coalesced isFree isCut targetFree obtained
        have led := handedOut_congr kept.handedOut (usedPieces_led isFree isCut targetFree)
        have handedOut := led.obtained targetFree obtained fits
        rw [List.append_assoc (before ++ lead)] at handedOut
        have newKept := kept.granted newRep coalesced handedOut (Nat.pos_of_ne_zero nonzero)
        exact ⟨new, target.ptr + 16, isServed, fun isNull => absurd isNull (by omega), multiple,
          _, _, newKept⟩

/-! ## Releasing -/

theorem dropped_null (noNull : ∀ used ∈ state.live, used.1 ≠ 0) : state.dropped 0 = state := by
  have same : state.live.eraseP (fun used => used.1 = blockFromPtr 0) = state.live := by
    apply List.eraseP_of_forall_not
    intro used held isNull
    exact noNull used held (of_decide_eq_true isNull)
  unfold dropped
  rw [same]

theorem Kept.noNull (kept : state.Kept pieces lists) : ∀ used ∈ state.live, used.1 ≠ 0 := by
  intro used held
  obtain ⟨before, piece, after, isSplit, isPtr, _⟩ := kept.split held
  subst isSplit
  have bounds := kept.rep.laid.piece_bounds (show piece ∈ _ by simp)
  omega

/-- A held block becomes free. -/
theorem Kept.released (kept : state.Kept (before ++ piece :: after) lists)
    (isUsed : piece.free = false) (held : piece.ptr ∈ state.live.map Prod.fst)
    (newRep : Rep state.pools control (released 8 before piece after) newLists []) :
    ({ state.dropped (piece.ptr + 16) with control := control } : State).Kept
      (released 8 before piece after) newLists where
  rep := newRep
  coalesced := Coalesced.released kept.coalesced 8
  handedOut := by
    change HandedOut (state.dropped (piece.ptr + 16)).handed _
    rw [handed_dropped held]
    exact kept.handedOut.released kept.nodup isUsed 8
  positive := fun used member => kept.positive used (List.mem_of_mem_eraseP member)
  nonempty := kept.nonempty

/-- `tlsf_free` -/
theorem free_spec (inv : state.Inv) (enabled : ptr = 0 ∨ state.Holds ptr) :
    ∃ control, state.control.tlsfFree ptr = some control ∧
      ({ state.dropped ptr with control := control } : State).Inv := by
  obtain ⟨pieces, lists, kept⟩ := inv
  rcases enabled with isNull | holds
  · refine ⟨state.control, by rw [isNull]; rfl, pieces, lists, ?_⟩
    rw [isNull, dropped_null kept.noNull]
    exact kept
  · obtain ⟨before, piece, after, isSplit, isPtr, isUsed, notEmpty, held⟩ := kept.holds holds
    subst isSplit isPtr
    obtain ⟨new, newLists, isFreed, newRep, _⟩ := tlsfFree_spec kept.rep isUsed notEmpty
    exact ⟨new, isFreed, _, newLists, kept.released isUsed held newRep⟩

/-! ## Resizing -/

/-- The block holds the size, alone or with the free block behind it. -/
def RoomAt (control : Control) (block adjust : Nat) : Prop :=
  adjust ≤ control.blockSize block ∨ ∃ next, control.blockNext block = some next ∧
    control.blockIsFree next = true ∧ adjust ≤ control.blockSize block + control.blockSize next + 8

theorem roomAt_iff (rep : Rep state.pools control (before ++ piece :: after) lists [])
    (notEmpty : piece.len ≠ 0) {adjust : Nat} :
    RoomAt control piece.ptr adjust ↔ HasRoom piece after adjust := by
  have member : piece ∈ before ++ piece :: after := by simp
  obtain ⟨next, rest, isCons, isNext⟩ := rep.exists_next notEmpty
  subst isCons
  have nextMember : next ∈ before ++ piece :: next :: rest := by simp
  unfold RoomAt HasRoom
  rw [rep.blockSize member, rep.blockNext member notEmpty, ← isNext]
  refine or_congr_right ⟨?_, ?_⟩
  · rintro ⟨found, isFound, nextFree, fits⟩
    cases isFound
    rw [rep.blockIsFree nextMember] at nextFree
    rw [rep.blockSize nextMember] at fits
    exact ⟨next, rest, rfl, nextFree, by omega⟩
  · rintro ⟨found, others, isCons, nextFree, fits⟩
    cases isCons
    refine ⟨next.ptr, rfl, ?_, ?_⟩
    · rw [rep.blockIsFree nextMember, nextFree]
    · rw [rep.blockSize nextMember]
      omega

/-- A block that is neither kept in its place nor freed is moved. -/
theorem realloc_move (rep : Rep state.pools control (before ++ piece :: after) lists [])
    (isUsed : piece.free = false) (notEmpty : piece.len ≠ 0) (nonzero : size ≠ 0)
    (noRoom : ¬ HasRoom piece after (adjustRequestSize .bits64 size 8)) :
    control.tlsfRealloc (piece.ptr + 16) size =
      control.reallocMove (piece.ptr + 16) size piece.len := by
  have member : piece ∈ before ++ piece :: after := by simp
  obtain ⟨next, rest, isCons, isNext⟩ := rep.exists_next notEmpty
  subst isCons
  have nextMember : next ∈ before ++ piece :: next :: rest := by simp
  have ownBounds := rep.laid.piece_bounds member
  have nextBounds := rep.laid.piece_bounds nextMember
  have notFree : ¬ control.blockIsFree piece.ptr := by
    rw [rep.blockIsFree member, isUsed]
    decide
  have isBlock : blockFromPtr (piece.ptr + 16) = piece.ptr := Nat.add_sub_cancel _ _
  have isInner : addWord .bits64 piece.len next.len = piece.len + next.len :=
    addWord_of_lt (by omega)
  have isCombined : addWord .bits64 (piece.len + next.len) 8 = piece.len + next.len + 8 :=
    addWord_of_lt (by omega)
  have tooSmall : piece.len < adjustRequestSize .bits64 size 8 :=
    Nat.lt_of_not_le fun fits => noRoom (.inl fits)
  have stillSmall : ¬ control.blockIsFree next.ptr = true ∨
      piece.len + next.len + 8 < adjustRequestSize .bits64 size 8 := by
    rw [rep.blockIsFree nextMember]
    by_cases nextFree : next.free = true
    · exact .inr (Nat.lt_of_not_le fun fits => noRoom (.inr ⟨next, rest, rfl, nextFree, fits⟩))
    · exact .inl nextFree
  unfold tlsfRealloc
  rw [if_neg (by omega), if_neg (by omega)]
  dsimp only
  rw [isBlock, rep.blockNext member notEmpty, some_bind, rep.blockSize member, ← isNext,
    rep.blockSize nextMember, blockHeaderOverhead_bits64, alignSize_bits64, isInner, isCombined,
    guard_bind notFree, if_pos ⟨tooSmall, stillSmall⟩]

/-- The condition for `tlsf_realloc`. -/
def ReallocMeets (state : State) (ptr size : Nat) : Prop :=
  (ptr = 0 ∨ size < 2 ^ 32) ∧ (adjustRequestSize .bits64 size 8 ≤ largestRequest .bits64 ∨
    ptr ≠ 0 ∧ RoomAt state.control (blockFromPtr ptr) (adjustRequestSize .bits64 size 8))

/-- The result of `tlsf_realloc` is null and nothing changes, or the block is kept or moved. A
block is freed if the size is zero. -/
structure Reallocated (state : State) (ptr size : Nat) (control : Control) (moved : Nat) :
    Prop where
  inv : (state.reallocated control ptr size moved).Inv
  freed : ptr ≠ 0 → size = 0 → moved = 0
  null : moved = 0 → ptr = 0 ∨ size ≠ 0 → control = state.control
  large : moved ≠ 0 → size ≤ control.blockSize (blockFromPtr moved)
  contents : ptr ≠ 0 → moved ≠ 0 →
    ∀ offset < min (state.control.blockSize (blockFromPtr ptr)) size,
      control.memory (moved + offset) = state.control.memory (ptr + offset)

theorem Kept.resized {pieces : List Piece} (kept : state.Kept (before ++ piece :: after) lists)
    (isUsed : piece.free = false) (held : piece.ptr ∈ state.live.map Prod.fst) (nonzero : size ≠ 0)
    (fits : size ≤ wanted) (resized : Resized before piece after wanted pieces)
    (newRep : Rep state.pools control pieces newLists []) :
    (state.reallocated control (piece.ptr + 16) size (piece.ptr + 16)).Kept pieces newLists := by
  obtain ⟨⟨len, rest, isShape, large, sameUsed⟩, coalesced⟩ := resized
  subst isShape
  have handedOut := handedOut_resized kept.handedOut kept.nodup isUsed
    (fits.trans large) sameUsed
  rw [← handed_dropped held] at handedOut
  unfold reallocated
  rw [if_pos (.inr (by omega))]
  exact
    { rep := newRep
      coalesced := coalesced kept.coalesced
      handedOut := handedOut
      positive := by
        intro used member
        rcases List.mem_cons.mp member with isNew | isOld
        · rw [isNew]
          exact Nat.pos_of_ne_zero nonzero
        · exact kept.positive used (List.mem_of_mem_eraseP isOld)
      nonempty := kept.nonempty }

theorem Kept.moved {pieces : List Piece} (kept : state.Kept (before ++ piece :: after) lists)
    (isUsed : piece.free = false) (held : piece.ptr ∈ state.live.map Prod.fst) (nonzero : size ≠ 0)
    (fits : size ≤ wanted) (moved : Moved before piece after wanted ptr pieces)
    (newRep : Rep state.pools control pieces newLists []) :
    (state.reallocated control (piece.ptr + 16) size ptr).Kept pieces newLists := by
  obtain ⟨left, target, right, middle, first, last, isSplit, targetFree, obtained, isShape, isPtr,
    isReleased⟩ := moved.shape
  subst isPtr isReleased
  have targetMember : target ∈ before ++ piece :: after := by
    rw [isSplit]
    simp
  have notHeld : target.ptr ∉ state.handed.map Prod.fst := by
    intro isHeld
    obtain ⟨other, isUsedPiece, samePtr⟩ :=
      List.mem_map.mp (kept.handedOut.perm.mem_iff.mp isHeld)
    obtain ⟨member, notFree⟩ := List.mem_filter.mp isUsedPiece
    rw [kept.rep.laid.ptr_inj member targetMember samePtr, targetFree] at notFree
    cases notFree
  have inHanded : piece.ptr ∈ state.handed.map Prod.fst := by
    rw [handed, List.map_append]
    exact List.mem_append_left _ held
  have different : target.ptr ≠ piece.ptr := fun same => notHeld (same ▸ inHanded)
  have coalesced := kept.coalesced
  have handedOut := kept.handedOut
  rw [isSplit] at coalesced handedOut
  have servedCoalesced := Coalesced.obtained coalesced targetFree obtained
  have servedOut := handedOut.obtained targetFree obtained fits
  rw [List.append_assoc, isShape] at servedCoalesced servedOut
  have servedNodup : (((target.ptr, size) :: state.handed).map Prod.fst).Nodup :=
    List.nodup_cons.mpr ⟨notHeld, kept.nodup⟩
  have releasedOut := servedOut.released servedNodup isUsed 8
  rw [List.eraseP_cons_of_neg (by simpa using different), ← handed_dropped held] at releasedOut
  unfold reallocated
  rw [if_pos (.inr (by omega))]
  exact
    { rep := newRep
      coalesced := Coalesced.released servedCoalesced 8
      handedOut := releasedOut
      positive := by
        intro used member
        rcases List.mem_cons.mp member with isNew | isOld
        · rw [isNew]
          exact Nat.pos_of_ne_zero nonzero
        · exact kept.positive used (List.mem_of_mem_eraseP isOld)
      nonempty := kept.nonempty }

/-- `tlsf_realloc` -/
theorem realloc_spec (inv : state.Inv) (enabled : ptr = 0 ∨ state.Holds ptr)
    (meets : state.ReallocMeets ptr size) :
    ∃ control moved, state.control.tlsfRealloc ptr size = some (control, moved) ∧
      state.Reallocated ptr size control moved := by
  obtain ⟨small, served⟩ := meets
  obtain ⟨pieces, lists, kept⟩ := id inv
  rcases enabled with isNull | holds
  · subst isNull
    have inTables := served.resolve_right fun both => both.1 rfl
    obtain ⟨new, moved, isServed, isSame, newInv⟩ := malloc_spec inv inTables
    have reallocInv : (state.reallocated new 0 size moved).Inv := by
      unfold reallocated
      rw [dropped_null kept.noNull, ite_self]
      exact newInv
    refine ⟨new, moved, ?_, reallocInv, fun notNull => absurd rfl notNull, fun isNull _ =>
      isSame isNull, newInv.granted_size_le, fun notNull => absurd rfl notNull⟩
    unfold tlsfRealloc
    rw [if_neg (fun both => both.1 rfl), if_pos rfl]
    exact isServed
  · have notNull : ptr ≠ 0 := by
      obtain ⟨used, _, isPtr⟩ := holds
      rw [isPtr, blockToPtr_eq]
      omega
    by_cases isZero : size = 0
    · subst isZero
      obtain ⟨new, isFreed, newInv⟩ := free_spec inv (.inr holds)
      refine ⟨new, 0, ?_, ?_, fun _ _ => rfl, fun _ other => ?_, fun isMoved => absurd rfl isMoved,
        fun _ isMoved => absurd rfl isMoved⟩
      · unfold tlsfRealloc
        rw [if_pos ⟨notNull, rfl⟩, isFreed]
        rfl
      · unfold reallocated
        rw [if_pos (.inl rfl)]
        exact newInv
      · exact absurd (other.resolve_left notNull) (by decide)
    · have sizeSmall := small.resolve_left notNull
      obtain ⟨aligned, least, fits, _⟩ := adjust_spec isZero sizeSmall
      obtain ⟨before, piece, after, isSplit, isPtr, isUsed, notEmpty, held⟩ := kept.holds holds
      subst isSplit isPtr
      have isBlock : blockFromPtr (piece.ptr + 16) = piece.ptr := Nat.add_sub_cancel _ _
      have isSize := kept.rep.blockSize (show piece ∈ before ++ piece :: after by simp)
      have room : RoomAt state.control piece.ptr (adjustRequestSize .bits64 size 8) ↔
          HasRoom piece after (adjustRequestSize .bits64 size 8) := roomAt_iff kept.rep notEmpty
      rw [isBlock] at served
      by_cases hasRoom : HasRoom piece after (adjustRequestSize .bits64 size 8)
      · obtain ⟨new, newLists, newPieces, isKept, newRep, resized, _, contents⟩ :=
          tlsfRealloc_inPlace kept.rep isUsed notEmpty isZero sizeSmall hasRoom
        have newKept := kept.resized isUsed held isZero fits resized newRep
        have newInv : (state.reallocated new (piece.ptr + 16) size (piece.ptr + 16)).Inv :=
          ⟨_, _, newKept⟩
        refine ⟨new, piece.ptr + 16, isKept, newInv, fun _ isNone => absurd isNone isZero,
          fun isNull => absurd isNull (by omega), newInv.granted_size_le, ?_⟩
        intro _ _ offset inside
        rw [isBlock, isSize] at inside
        exact contents _ (List.mem_singleton_self _) _ (by dsimp only; omega) (by dsimp only; omega)
      · have inTables := served.resolve_right fun both => hasRoom (room.mp both.2)
        have searchable : Searchable (adjustRequestSize .bits64 size 8) :=
          ⟨aligned, least, inTables⟩
        have isMove := realloc_move kept.rep isUsed notEmpty isZero hasRoom
        rcases reallocMove_spec kept.rep isUsed notEmpty searchable fits with ⟨isNone, _⟩ |
          ⟨new, newLists, newPieces, moved, isMoved, movedNot, newRep, shape, _, contents⟩
        · refine ⟨state.control, 0, isMove.trans isNone, ?_, fun _ _ => rfl, fun _ _ => rfl,
            fun isMoved => absurd rfl isMoved, fun _ isMoved => absurd rfl isMoved⟩
          unfold reallocated
          rw [if_neg (by simpa using isZero)]
          exact ⟨_, _, kept⟩
        · have newKept := kept.moved isUsed held isZero fits shape newRep
          have newInv : (state.reallocated new (piece.ptr + 16) size moved).Inv := ⟨_, _, newKept⟩
          refine ⟨new, moved, isMove.trans isMoved, newInv, fun _ isNone => absurd isNone isZero,
            fun isNull => absurd isNull movedNot, newInv.granted_size_le, ?_⟩
          intro _ _ offset inside
          rw [isBlock, isSize] at inside
          exact contents offset inside

/-! ## Pools -/

variable {mem bytes pool place : Nat} {byte : UInt8}

theorem Kept.pooled (kept : state.Kept pieces lists) (notNull : pool ≠ 0)
    (nonempty : 0 < poolBytes .bits64 bytes)
    (newRep : Rep (poolOf mem (poolBytes .bits64 bytes) :: state.pools) control
      (poolBlock mem (poolBytes .bits64 bytes) ::
        sentinel (mem + poolBytes .bits64 bytes) :: pieces)
      newLists []) :
    (state.pooled control mem bytes pool).Kept
      (poolBlock mem (poolBytes .bits64 bytes) ::
        sentinel (mem + poolBytes .bits64 bytes) :: pieces)
      newLists := by
  have handedOut := kept.handedOut
  unfold State.pooled
  rw [if_neg notNull]
  exact
    { rep := newRep
      coalesced := by
        refine List.isChain_cons_cons.mpr ⟨fun both => Bool.false_ne_true both.2, ?_⟩
        refine List.isChain_cons.mpr ⟨?_, kept.coalesced⟩
        exact fun _ _ both => Bool.false_ne_true both.1
      handedOut := by
        constructor
        · have perm := handedOut.perm
          unfold handed at perm ⊢
          rw [List.map_append] at perm ⊢
          exact List.perm_middle.trans (perm.cons _)
        · intro used member
          have isNewOrOld : used = (mem + poolBytes .bits64 bytes, 0) ∨ used ∈ state.handed := by
            rcases List.mem_append.mp member with isLive | isSentinel
            · exact .inr (List.mem_append_left _ isLive)
            · rcases List.mem_cons.mp isSentinel with isNew | isOld
              · exact .inl isNew
              · exact .inr (List.mem_append_right _ isOld)
          rcases isNewOrOld with isNew | isOld
          · rw [isNew]
            exact ⟨sentinel (mem + poolBytes .bits64 bytes), List.mem_cons_self, rfl, Nat.le_refl _⟩
          · obtain ⟨piece, isUsed, samePtr, large⟩ := handedOut.large used isOld
            exact ⟨piece, List.mem_cons_of_mem _ isUsed, samePtr, large⟩
      positive := kept.positive
      nonempty := by
        intro entry isPool
        rcases List.mem_cons.mp isPool with isNew | isOld
        · rw [isNew, poolOf]
          dsimp only
          omega
        · exact kept.nonempty entry isOld }

/-- Owned memory is a place for an accepted pool. -/
theorem Owned.fits (owned : state.Owned mem bytes) (aligned : mem % 8 = 0)
    (accepted : Accepted .bits64 bytes) (notMax : poolBytes .bits64 bytes ≠ blockSizeMax .bits64) :
    PoolFits state.pools state.control.address mem (poolBytes .bits64 bytes) := by
  obtain ⟨nonzero, inRange, nullApart, poolsApart⟩ := owned
  obtain ⟨sizeAligned, least, fits, _⟩ := poolBytes_spec accepted (by omega)
  have most := accepted.2
  have isMax : blockSizeMax .bits64 = 2 ^ 32 := rfl
  rw [isMax] at notMax most
  have inside : Extent.Inside ⟨mem, poolBytes .bits64 bytes + 16⟩ ⟨mem, bytes⟩ := by
    unfold Extent.Inside
    dsimp only
    omega
  have nullInside : Extent.Inside ⟨state.control.address, 32⟩
      ⟨state.control.address, tlsfSize⟩ := by
    unfold Extent.Inside tlsfSize
    dsimp only
    omega
  exact
    { aligned := aligned
      nonzero := nonzero
      sizeAligned := sizeAligned
      least := least
      small := by omega
      inRange := by omega
      null := nullApart.parts nullInside inside
      apart := fun pool isPool => (poolsApart pool isPool).inside inside }

/-- `tlsf_add_pool` -/
theorem addPool_spec (inv : state.Inv) (enabled : state.Owned mem bytes)
    (meets : poolBytes .bits64 bytes ≠ blockSizeMax .bits64) :
    ∃ control pool, state.control.tlsfAddPool mem bytes = some (control, pool) ∧
      (state.pooled control mem bytes pool).Inv := by
  by_cases accepted : mem % 8 = 0 ∧ Accepted .bits64 bytes
  · obtain ⟨pieces, lists, kept⟩ := inv
    have fits := enabled.fits accepted.1 accepted.2 meets
    have nonzero := enabled.nonzero
    have least := fits.least
    obtain ⟨new, newLists, isAdded, newRep, _⟩ := tlsfAddPool_spec accepted.2 fits kept.rep
    have newKept := kept.pooled (show mem ≠ 0 by omega) (by omega) newRep
    exact ⟨new, mem, isAdded, _, newLists, newKept⟩
  · exact ⟨state.control, 0, tlsfAddPool_rejected (by tauto), inv⟩

/-- A pool without held blocks is one free block. -/
theorem Kept.unused (kept : state.Kept pieces lists) {entry : Nat × Nat}
    (isPool : entry ∈ state.pools)
    (noneHeld : ∀ used ∈ state.live, ¬ (entry.1 ≤ used.1 ∧ used.1 < entry.2))
    {group : List Piece} (isPieces : pieces = before ++ (group ++ sentinel entry.2 :: after))
    (tiles : Tiles id 8 entry.1 group entry.2) (noSentinel : ∀ piece ∈ group, piece.len ≠ 0) :
    ∃ size, group = [⟨entry.1, size, true⟩] := by
  subst isPieces
  have place_inside : ∀ piece ∈ group, entry.1 ≤ piece.ptr ∧ piece.ptr < entry.2 := by
    intro piece member
    obtain ⟨left, right, isSplit⟩ := List.append_of_mem member
    rw [isSplit] at tiles
    have isPlace := tiles.address_eq
    have isStop := tiles.stop_eq
    have notEmpty := noSentinel piece member
    rw [covered_append, covered_cons] at isStop
    rw [id] at isPlace
    omega
  have noneUsed : usedPieces group = [] := by
    rw [usedPieces, List.filter_eq_nil_iff]
    intro piece member isUsed
    have inPieces : piece ∈ before ++ (group ++ sentinel entry.2 :: after) :=
      List.mem_append_right _ (List.mem_append_left _ member)
    have inUsed : piece ∈ usedPieces (before ++ (group ++ sentinel entry.2 :: after)) :=
      List.mem_filter.mpr ⟨inPieces, isUsed⟩
    obtain ⟨used, isHanded, samePtr⟩ := List.mem_map.mp
      (kept.handedOut.perm.mem_iff.mpr (List.mem_map_of_mem inUsed))
    have inside := place_inside piece member
    rcases List.mem_append.mp isHanded with isLive | isSentinel
    · exact noneHeld used isLive (samePtr ▸ inside)
    · -- the sentinel of a pool is no block of another one
      obtain ⟨other, isOther, isUsedPool⟩ := List.mem_map.mp isSentinel
      have pooled := kept.rep.laid.pooled
      obtain ⟨first, last, isSplit⟩ := List.append_of_mem isOther
      rw [isSplit] at pooled
      obtain ⟨otherBefore, otherGroup, otherAfter, isAlso, _⟩ := pooled.split
      have isMember : sentinel other.2 ∈ before ++ (group ++ sentinel entry.2 :: after) := by
        rw [isAlso]
        simp
      have samePlace : piece.ptr = (sentinel other.2).ptr := by
        rw [← samePtr, ← isUsedPool]
        rfl
      have isSame := kept.rep.laid.ptr_inj inPieces isMember samePlace
      exact noSentinel piece member (by rw [isSame]; rfl)
  have groupCoalesced : Coalesced group :=
    (List.isChain_append.mp (List.isChain_append.mp kept.coalesced).2.1).1
  have nonempty : group ≠ [] := by
    intro isNil
    rw [isNil] at tiles
    have bound := kept.nonempty entry isPool
    exact Nat.ne_of_lt bound tiles
  obtain ⟨piece, isSingle, isFree⟩ := Coalesced.single groupCoalesced nonempty noneUsed
  rw [isSingle] at tiles
  refine ⟨piece.len, ?_⟩
  have isPlace : piece.ptr = entry.1 := tiles.1
  rw [isSingle, ← isPlace, ← isFree]

/-- The last block of a pool is used. -/
theorem coalesced_pools {pools : List (Nat × Nat)} (pooledBefore : Pooled 8 pools before)
    (left : Coalesced before) (right : Coalesced after) : Coalesced (before ++ after) := by
  refine List.isChain_append.mpr ⟨left, right, ?_⟩
  rintro last isLast _ _ ⟨isFree, _⟩
  obtain ⟨rest, isConcat⟩ := List.getLast?_eq_some_iff.mp isLast
  have notFree := endFree_of_pooled pooledBefore
  rw [isConcat, endFree_concat, isFree] at notFree
  cases notFree

/-- The sentinel of a removed pool is no longer handed out. -/
theorem handedOut_unpooled {front back : List (Nat × Nat)} {stop : Nat}
    (handedOut : HandedOut (front ++ (stop, 0) :: back) (before ++ piece :: sentinel stop :: after))
    (isFree : piece.free = true) (nodup : ((front ++ (stop, 0) :: back).map Prod.fst).Nodup) :
    HandedOut (front ++ back) (before ++ after) := by
  have isUsed : usedPieces (before ++ piece :: sentinel stop :: after) =
      usedPieces before ++ sentinel stop :: usedPieces after := by
    rw [usedPieces_append, usedPieces_cons_free isFree, usedPieces_cons_used rfl]
  obtain ⟨perm, large⟩ := handedOut
  rw [isUsed] at perm large
  rw [List.map_append, List.map_cons] at perm nodup
  constructor
  · rw [List.map_append, List.map_cons] at perm
    rw [List.map_append, usedPieces_append, List.map_append]
    exact (List.perm_middle.symm.trans (perm.trans List.perm_middle)).cons_inv
  · intro used member
    obtain ⟨other, isPiece, samePtr, fits⟩ := large used (by
      rcases List.mem_append.mp member with inFront | inBack
      · exact List.mem_append_left _ inFront
      · exact List.mem_append_right _ (List.mem_cons_of_mem _ inBack))
    refine ⟨other, ?_, samePtr, fits⟩
    rw [usedPieces_append]
    rcases List.mem_append.mp isPiece with inBefore | isPiece
    · exact List.mem_append_left _ inBefore
    · rcases List.mem_cons.mp isPiece with isSentinel | inAfter
      · have notTwice := (List.nodup_middle.mp nodup)
        rw [← List.map_append] at notTwice
        have isStop : used.1 = stop := by
          rw [← samePtr, isSentinel]
          rfl
        have isListed : used.1 ∈ (front ++ back).map Prod.fst := List.mem_map_of_mem member
        exact absurd (isStop ▸ isListed) (List.nodup_cons.mp notTwice).1
      · exact List.mem_append_right _ inAfter

/-- `tlsf_remove_pool` -/
theorem removePool_spec (inv : state.Inv) (enabled : state.Enabled (.removePool pool)) :
    ∃ control, state.control.tlsfRemovePool pool = some control ∧
      (state.unpooled control pool).Inv := by
  obtain ⟨pieces, lists, kept⟩ := inv
  obtain ⟨entry, isPool, isHandle, noneHeld⟩ := enabled
  obtain ⟨⟨place, stop⟩, first, others, _, isFound, isSplit, isErased⟩ :=
    List.exists_of_eraseP isPool (p := fun entry => decide (entry.1 + 8 = pool))
      (decide_eq_true isHandle)
  have isFound : place + 8 = pool := of_decide_eq_true isFound
  have isMember : (place, stop) ∈ state.pools := by
    rw [isSplit]
    simp
  have isEntry : (place, stop) = entry := by
    by_contra different
    have apart := Extent.apart_of_map kept.rep.laid.apart isMember isPool different
    have own := kept.nonempty (place, stop) isMember
    have other := kept.nonempty entry isPool
    unfold Extent.Apart Apart poolExtent at apart
    dsimp only at apart own
    omega
  have rep := kept.rep
  have nodup := kept.nodup
  have handedOut := kept.handedOut
  have pooled := rep.laid.pooled
  rw [isSplit] at pooled
  obtain ⟨before, group, after, isPieces, pooledBefore, tiles, noSentinel, pooledAfter⟩ :=
    pooled.split
  obtain ⟨size, isGroup⟩ := kept.unused isMember (isEntry ▸ noneHeld) isPieces tiles noSentinel
  subst isPieces isGroup
  have isHanded : state.handed = (state.live ++ first.map fun pool => (pool.2, 0)) ++
      (stop, 0) :: others.map fun pool => (pool.2, 0) := by
    unfold handed
    rw [isSplit, List.map_append, List.map_cons, List.append_assoc]
  rw [isHanded] at nodup handedOut
  rw [isSplit] at rep
  obtain ⟨new, newLists, isRemoved, newRep, _⟩ := tlsfRemovePool_spec rep pooledBefore pooledAfter
  have coalesced := List.isChain_append.mp kept.coalesced
  have rest := (List.isChain_cons_cons.mp coalesced.2.1).2
  refine ⟨new, by rw [← isFound]; exact isRemoved, before ++ after, newLists, ?_⟩
  have isPools : (state.unpooled new pool).pools = first ++ others := isErased
  exact
    { rep := by
        rw [isPools]
        exact newRep
      coalesced := coalesced_pools pooledBefore coalesced.1 (List.isChain_cons.mp rest).2
      handedOut := by
        have newOut := handedOut_unpooled handedOut rfl nodup
        unfold handed
        rw [isPools, List.map_append, ← List.append_assoc]
        exact newOut
      positive := kept.positive
      nonempty := by
        intro other isOther
        rw [isPools] at isOther
        refine kept.nonempty other ?_
        rw [isSplit]
        simp only [List.mem_append, List.mem_cons] at isOther ⊢
        exact isOther.imp_right .inr }

/-! ## Using blocks -/

theorem write_spec (inv : state.Inv) (enabled : state.Enabled (.write place byte)) :
    (state.written place byte).Inv := by
  obtain ⟨pieces, lists, kept⟩ := inv
  obtain ⟨used, held, low, high⟩ := enabled
  obtain ⟨before, piece, after, isSplit, isPtr, isUsed, _⟩ := kept.split held
  subst isSplit
  have member : piece ∈ before ++ piece :: after := by simp
  rw [← isPtr, kept.rep.blockSize member, blockToPtr_eq] at high
  rw [← isPtr, blockToPtr_eq] at low
  refine ⟨before ++ piece :: after, lists, ?_⟩
  exact
    { rep := by
        refine kept.rep.overwrite ?_
        intro other outside
        have notInside := outside piece (List.mem_filter.mpr ⟨member, by simp [isUsed]⟩)
        refine Function.update_of_ne ?_ _ _
        intro isPlace
        exact notInside (by omega)
      coalesced := kept.coalesced
      handedOut := kept.handedOut
      positive := kept.positive
      nonempty := kept.nonempty }

end State

end MallocSurvey.Tlsf
