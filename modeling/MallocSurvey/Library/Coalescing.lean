import Mathlib.Data.List.Chain
import Mathlib.Data.List.Nodup
import Mathlib.Algebra.BigOperators.Group.List.Basic
import Mathlib.Algebra.Ring.Nat

/-! # Coalescing allocation

A space is cut into pieces in the order of their addresses. Each is used or free and is
preceded by a gap, the place of its header. A released piece is joined with its free
neighbours, so that no two adjacent pieces are free. -/

namespace MallocSurvey.Library

structure Piece where
  ptr : Nat
  len : Nat
  free : Bool
deriving DecidableEq

namespace Piece

def freed (piece : Piece) : Piece := { piece with free := true }

def used (piece : Piece) : Piece := { piece with free := false }

def extent (piece : Piece) : Nat × Nat := (piece.ptr, piece.len)

/-- The piece made of two adjacent ones and the gap between them. -/
def joined (gap : Nat) (left right : Piece) : Piece :=
  ⟨left.ptr, left.len + (gap + right.len), false⟩

end Piece

/-- The sum of the lengths of the free pieces. -/
def freeTotal (pieces : List Piece) : Nat :=
  ((pieces.filter Piece.free).map Piece.len).sum

def usedPieces (pieces : List Piece) : List Piece := pieces.filter fun piece => !piece.free

/-- The bytes of the pieces and their gaps. -/
def covered (gap : Nat) (pieces : List Piece) : Nat :=
  (pieces.map fun piece => gap + piece.len).sum

/-- No two adjacent pieces are free. -/
def Coalesced (pieces : List Piece) : Prop :=
  pieces.IsChain fun left right => ¬ (left.free = true ∧ right.free = true)

/-- The pieces and their gaps follow each other without holes. -/
def Tiles (address : Nat → Nat) (gap : Nat) : Nat → List Piece → Nat → Prop
  | start, [], stop => start = stop
  | start, piece :: rest, stop =>
      address piece.ptr = start ∧ Tiles address gap (start + (gap + piece.len)) rest stop

/-- The last piece of `before` is joined with `piece` if it is free. -/
def absorbPrev (gap : Nat) (before : List Piece) (piece : Piece) : List Piece × Piece :=
  match before.getLast? with
  | some left =>
      if left.free then (before.dropLast, left.joined gap piece) else (before, piece)
  | none => (before, piece)

/-- The first piece of `after` is joined with `piece` if it is free. -/
def absorbNext (gap : Nat) (piece : Piece) : List Piece → Piece × List Piece
  | right :: after =>
      if right.free then (piece.joined gap right, after) else (piece, right :: after)
  | [] => (piece, [])

/-- The pieces after `piece` was released. -/
def released (gap : Nat) (before : List Piece) (piece : Piece) (after : List Piece) :
    List Piece :=
  let (before, piece) := absorbPrev gap before piece
  let (piece, after) := absorbNext gap piece after
  before ++ piece.freed :: after

/-- A free piece is used whole, or its start is and the rest stays free. -/
def Obtained (gap size : Nat) (piece : Piece) (middle : List Piece) : Prop :=
  size ≤ piece.len ∧
    (middle = [piece.used] ∨
      size + gap ≤ piece.len ∧
        ∃ rem, middle = [⟨piece.ptr, size, false⟩, ⟨rem, piece.len - size - gap, true⟩])

variable {gap : Nat} {before after pieces : List Piece} {piece : Piece}

theorem freeTotal_cons (piece : Piece) (pieces : List Piece) :
    freeTotal (piece :: pieces) =
      (if piece.free then piece.len else 0) + freeTotal pieces := by
  unfold freeTotal
  cases isFree : piece.free with
  | false => simp [isFree]
  | true => simp [isFree]

theorem freeTotal_append (left right : List Piece) :
    freeTotal (left ++ right) = freeTotal left + freeTotal right := by
  simp [freeTotal]

theorem freeTotal_perm {left right : List Piece} (perm : left.Perm right) :
    freeTotal left = freeTotal right :=
  ((perm.filter Piece.free).map Piece.len).sum_nat

theorem freeTotal_le (pieces : List Piece) : freeTotal pieces ≤ (pieces.map Piece.len).sum := by
  induction pieces with
  | nil => exact Nat.le_refl _
  | cons piece rest induction =>
      rw [freeTotal_cons, List.map_cons, List.sum_cons]
      split <;> omega

theorem freeTotal_of_used (allUsed : ∀ piece ∈ pieces, piece.free = false) :
    freeTotal pieces = 0 := by
  have noneFree : pieces.filter Piece.free = [] := by
    rw [List.filter_eq_nil_iff]
    intro piece member isFree
    rw [allUsed piece member] at isFree
    cases isFree
  rw [freeTotal, noneFree]
  rfl

theorem sum_len_le_covered (gap : Nat) (pieces : List Piece) :
    (pieces.map Piece.len).sum ≤ covered gap pieces := by
  unfold covered
  induction pieces with
  | nil => exact Nat.le_refl _
  | cons piece rest induction =>
      rw [List.map_cons, List.map_cons, List.sum_cons, List.sum_cons]
      omega

/-! ## Releasing a piece -/

theorem absorbPrev_cases (gap : Nat) (before : List Piece) (piece : Piece) :
    (absorbPrev gap before piece = (before, piece) ∧
        ∀ left ∈ before.getLast?, left.free = false) ∨
      ∃ rest left, before = rest ++ [left] ∧ left.free = true ∧
        absorbPrev gap before piece = (rest, left.joined gap piece) := by
  rcases List.eq_nil_or_concat before with isNil | ⟨rest, left, isConcat⟩
  · subst isNil
    exact .inl ⟨rfl, nofun⟩
  · rw [List.concat_eq_append] at isConcat
    subst isConcat
    unfold absorbPrev
    rw [List.getLast?_concat]
    cases isFree : left.free with
    | true => exact .inr ⟨rest, left, rfl, isFree, by simp [isFree]⟩
    | false =>
        refine .inl ⟨by simp [isFree], ?_⟩
        intro other isLeft
        cases isLeft
        exact isFree

theorem absorbNext_cases (gap : Nat) (piece : Piece) (after : List Piece) :
    (absorbNext gap piece after = (piece, after) ∧
        ∀ right ∈ after.head?, right.free = false) ∨
      ∃ right rest, after = right :: rest ∧ right.free = true ∧
        absorbNext gap piece after = (piece.joined gap right, rest) := by
  cases after with
  | nil => exact .inl ⟨rfl, nofun⟩
  | cons right rest =>
      cases isFree : right.free with
      | true => exact .inr ⟨right, rest, rfl, isFree, by simp [absorbNext, isFree]⟩
      | false =>
          refine .inl ⟨by simp [absorbNext, isFree], ?_⟩
          intro other isRight
          cases isRight
          exact isFree

theorem Coalesced.absorbPrev (coalesced : Coalesced before) (gap : Nat) (piece : Piece) :
    Coalesced (absorbPrev gap before piece).1 ∧
      ∀ left ∈ (Library.absorbPrev gap before piece).1.getLast?, left.free = false := by
  rcases absorbPrev_cases gap before piece with ⟨isSame, lastUsed⟩ | ⟨rest, left, isConcat,
    isFree, isJoined⟩
  · rw [isSame]
    exact ⟨coalesced, lastUsed⟩
  · rw [isJoined]
    subst isConcat
    obtain ⟨restCoalesced, _, border⟩ := List.isChain_append.mp coalesced
    refine ⟨restCoalesced, ?_⟩
    intro other isLast
    have notBoth := border other isLast left rfl
    rw [isFree] at notBoth
    simpa using notBoth

theorem Coalesced.absorbNext (coalesced : Coalesced after) (gap : Nat) (piece : Piece) :
    Coalesced (absorbNext gap piece after).2 ∧
      ∀ right ∈ (Library.absorbNext gap piece after).2.head?, right.free = false := by
  rcases absorbNext_cases gap piece after with ⟨isSame, firstUsed⟩ | ⟨right, rest, isCons,
    isFree, isJoined⟩
  · rw [isSame]
    exact ⟨coalesced, firstUsed⟩
  · rw [isJoined]
    subst isCons
    obtain ⟨border, restCoalesced⟩ := List.isChain_cons.mp coalesced
    refine ⟨restCoalesced, ?_⟩
    intro other isFirst
    have notBoth := border other isFirst
    rw [isFree] at notBoth
    simpa using notBoth

/-- After a release no two adjacent pieces are free. -/
theorem Coalesced.released (coalesced : Coalesced (before ++ piece :: after)) (gap : Nat) :
    Coalesced (released gap before piece after) := by
  obtain ⟨beforeCoalesced, rest, _⟩ := List.isChain_append.mp coalesced
  have left := Coalesced.absorbPrev beforeCoalesced gap piece
  have right := Coalesced.absorbNext (List.isChain_cons.mp rest).2 gap
    (Library.absorbPrev gap before piece).2
  unfold Library.released
  refine List.isChain_append.mpr ⟨left.1, List.isChain_cons.mpr ⟨?_, right.1⟩, ?_⟩
  · rintro other isFirst ⟨_, isFree⟩
    rw [right.2 other isFirst] at isFree
    cases isFree
  · rintro other isLast _ _ ⟨isFree, _⟩
    rw [left.2 other isLast] at isFree
    cases isFree

theorem usedPieces_append (left right : List Piece) :
    usedPieces (left ++ right) = usedPieces left ++ usedPieces right :=
  List.filter_append ..

theorem usedPieces_cons_free (isFree : piece.free = true) (pieces : List Piece) :
    usedPieces (piece :: pieces) = usedPieces pieces := by
  simp [usedPieces, isFree]

theorem usedPieces_cons_used (isUsed : piece.free = false) (pieces : List Piece) :
    usedPieces (piece :: pieces) = piece :: usedPieces pieces := by
  simp [usedPieces, isUsed]

/-- A release does not change the other used pieces. -/
theorem usedPieces_released (gap : Nat) (before : List Piece) (piece : Piece)
    (after : List Piece) :
    usedPieces (released gap before piece after) = usedPieces before ++ usedPieces after := by
  have prev : usedPieces (absorbPrev gap before piece).1 = usedPieces before := by
    rcases absorbPrev_cases gap before piece with ⟨isSame, _⟩ | ⟨rest, left, isConcat, isFree,
      isJoined⟩
    · rw [isSame]
    · rw [isJoined, isConcat, usedPieces_append, usedPieces_cons_free isFree]
      simp [usedPieces]
  have next : ∀ piece, usedPieces (absorbNext gap piece after).2 = usedPieces after := by
    intro piece
    rcases absorbNext_cases gap piece after with ⟨isSame, _⟩ | ⟨right, rest, isCons, isFree,
      isJoined⟩
    · rw [isSame]
    · rw [isJoined, isCons, usedPieces_cons_free isFree]
  unfold released
  dsimp only
  rw [usedPieces_append, usedPieces_cons_free rfl, prev, next]

theorem covered_append (gap : Nat) (left right : List Piece) :
    covered gap (left ++ right) = covered gap left + covered gap right := by
  simp [covered]

theorem covered_cons (gap : Nat) (piece : Piece) (pieces : List Piece) :
    covered gap (piece :: pieces) = gap + piece.len + covered gap pieces := by
  simp [covered]

/-- If all pieces are free, there is one. -/
theorem Coalesced.single (coalesced : Coalesced pieces) (nonempty : pieces ≠ [])
    (noneUsed : usedPieces pieces = []) : ∃ piece, pieces = [piece] ∧ piece.free = true := by
  have allFree : ∀ piece ∈ pieces, piece.free = true := by
    intro piece member
    have notUsed := List.filter_eq_nil_iff.mp noneUsed piece member
    simpa using notUsed
  cases pieces with
  | nil => exact absurd rfl nonempty
  | cons first rest =>
      refine ⟨first, ?_, allFree first List.mem_cons_self⟩
      cases rest with
      | nil => rfl
      | cons second rest =>
          have notBoth := (List.isChain_cons_cons.mp coalesced).1
          exact absurd ⟨allFree first (by simp), allFree second (by simp)⟩ notBoth

/-! ## Obtaining a piece -/

section Obtain

variable {size : Nat} {middle : List Piece}

theorem Coalesced.obtained (coalesced : Coalesced (before ++ piece :: after))
    (isFree : piece.free = true) (obtained : Obtained gap size piece middle) :
    Coalesced (before ++ middle ++ after) := by
  obtain ⟨beforeCoalesced, rest, _⟩ := List.isChain_append.mp coalesced
  obtain ⟨border, afterCoalesced⟩ := List.isChain_cons.mp rest
  have firstUsed : ∀ right ∈ after.head?, right.free = false := by
    intro right isFirst
    have notBoth := border right isFirst
    rw [isFree] at notBoth
    simpa using notBoth
  rw [List.append_assoc]
  rcases obtained.2 with isWhole | ⟨_, rem, isSplit⟩
  · rw [isWhole]
    refine List.isChain_append.mpr ⟨beforeCoalesced, List.isChain_cons.mpr ⟨?_, afterCoalesced⟩, ?_⟩
    · rintro right isFirst ⟨isFree, _⟩
      cases isFree
    · rintro _ _ _ ⟨⟩ ⟨_, isFree⟩
      cases isFree
  · rw [isSplit]
    refine List.isChain_append.mpr ⟨beforeCoalesced, List.isChain_cons_cons.mpr
      ⟨fun both => Bool.false_ne_true both.1, List.isChain_cons.mpr ⟨?_, afterCoalesced⟩⟩, ?_⟩
    · rintro right isFirst ⟨_, isFree⟩
      rw [firstUsed right isFirst] at isFree
      cases isFree
    · rintro _ _ _ ⟨⟩ ⟨_, isFree⟩
      cases isFree

/-- One used piece is added, which holds the size. -/
theorem usedPieces_obtained (obtained : Obtained gap size piece middle)
    (before after : List Piece) :
    ∃ len, size ≤ len ∧ usedPieces (before ++ middle ++ after) =
      usedPieces before ++ ⟨piece.ptr, len, false⟩ :: usedPieces after := by
  rw [usedPieces_append, usedPieces_append, List.append_assoc]
  rcases obtained with ⟨fits, isWhole | ⟨_, rem, isSplit⟩⟩
  · exact ⟨piece.len, fits, by rw [isWhole]; rfl⟩
  · exact ⟨size, Nat.le_refl _, by rw [isSplit]; rfl⟩

end Obtain

/-! ## The pieces in use -/

/-- The used pieces are those that were handed out, each with the size asked for. -/
structure HandedOut (live : List (Nat × Nat)) (pieces : List Piece) : Prop where
  perm : (live.map Prod.fst).Perm ((usedPieces pieces).map Piece.ptr)
  large : ∀ used ∈ live, ∃ piece ∈ usedPieces pieces, piece.ptr = used.1 ∧ used.2 ≤ piece.len

namespace HandedOut

variable {live : List (Nat × Nat)} {size wanted : Nat} {middle : List Piece} {ptr : Nat}

theorem obtained (handedOut : HandedOut live (before ++ piece :: after)) (isFree : piece.free = true)
    (obtained : Obtained gap wanted piece middle) (fits : size ≤ wanted) :
    HandedOut ((piece.ptr, size) :: live) (before ++ middle ++ after) := by
  obtain ⟨len, wantedFits, isUsed⟩ := usedPieces_obtained obtained before after
  have before_eq : usedPieces (before ++ piece :: after) = usedPieces before ++ usedPieces after := by
    rw [usedPieces_append, usedPieces_cons_free isFree]
  constructor
  · rw [isUsed, List.map_append, List.map_cons, List.map_cons]
    have perm := handedOut.perm
    rw [before_eq, List.map_append] at perm
    exact (perm.cons _).trans List.perm_middle.symm
  · intro used member
    rcases List.mem_cons.mp member with isNew | isOld
    · rw [isUsed, isNew]
      exact ⟨⟨piece.ptr, len, false⟩, by simp, rfl, fits.trans wantedFits⟩
    · obtain ⟨other, isPiece, samePtr, large⟩ := handedOut.large used isOld
      rw [before_eq, List.mem_append] at isPiece
      rw [isUsed]
      exact ⟨other, by simpa using isPiece.imp id .inr, samePtr, large⟩

/-- The piece that was handed out at an address. -/
theorem split (handedOut : HandedOut live pieces) (member : ptr ∈ live.map Prod.fst) :
    ∃ before piece after, pieces = before ++ piece :: after ∧ piece.ptr = ptr ∧
      piece.free = false := by
  obtain ⟨piece, isUsed, isPtr⟩ := List.mem_map.mp (handedOut.perm.mem_iff.mp member)
  obtain ⟨isPiece, notFree⟩ := List.mem_filter.mp isUsed
  obtain ⟨before, after, isSplit⟩ := List.append_of_mem isPiece
  exact ⟨before, piece, after, isSplit, isPtr, by simpa using notFree⟩

/-- No piece is handed out twice. -/
theorem nodup (handedOut : HandedOut live pieces) (nodup : (pieces.map Piece.ptr).Nodup) :
    (live.map Prod.fst).Nodup :=
  handedOut.perm.nodup_iff.mpr (nodup.sublist (List.filter_sublist.map Piece.ptr))

theorem released (handedOut : HandedOut live (before ++ piece :: after))
    (nodup : (live.map Prod.fst).Nodup) (isUsed : piece.free = false) (gap : Nat) :
    HandedOut (live.eraseP fun used => used.1 = piece.ptr) (released gap before piece after) := by
  have before_eq : usedPieces (before ++ piece :: after) =
      usedPieces before ++ piece :: usedPieces after := by
    rw [usedPieces_append, usedPieces_cons_used isUsed]
  have erased : (live.eraseP fun used => used.1 = piece.ptr).map Prod.fst =
      (live.map Prod.fst).erase piece.ptr := by
    rw [List.erase_eq_eraseP', List.eraseP_map]
    congr 2
  have perm : ((live.eraseP fun used => used.1 = piece.ptr).map Prod.fst).Perm
      ((usedPieces before ++ usedPieces after).map Piece.ptr) := by
    have middle := handedOut.perm
    rw [before_eq] at middle
    have moved := middle.trans (List.perm_middle.map Piece.ptr)
    rw [List.map_cons] at moved
    rw [erased]
    exact (moved.erase piece.ptr).trans (by rw [List.erase_cons_head])
  have isReleased := usedPieces_released gap before piece after
  constructor
  · rw [isReleased]
    exact perm
  · intro used member
    obtain ⟨other, isPiece, samePtr⟩ :=
      List.mem_map.mp (perm.mem_iff.mp (List.mem_map_of_mem member))
    obtain ⟨served, isServed, servedPtr, large⟩ := handedOut.large used (List.mem_of_mem_eraseP member)
    have inUsed : other ∈ usedPieces (before ++ piece :: after) := by
      rw [before_eq]
      simpa using (List.mem_append.mp isPiece).imp id .inr
    have same : other = served := List.inj_on_of_nodup_map (handedOut.perm.nodup_iff.mp nodup)
      inUsed isServed (samePtr.trans servedPtr.symm)
    rw [isReleased]
    exact ⟨other, isPiece, samePtr, same ▸ large⟩

/-- If nothing is handed out, all pieces are one free piece. -/
theorem single (handedOut : HandedOut [] pieces) (coalesced : Coalesced pieces)
    (nonempty : pieces ≠ []) : ∃ piece, pieces = [piece] ∧ piece.free = true := by
  apply coalesced.single nonempty
  have noPtr := handedOut.perm.nil_eq
  exact List.map_eq_nil_iff.mp noPtr.symm

end HandedOut

/-! ## Tiling -/

section Tiling

variable {address newAddress : Nat → Nat} {start stop : Nat}

theorem tiles_append {left right : List Piece} :
    Tiles address gap start (left ++ right) stop ↔
      Tiles address gap start left (start + covered gap left) ∧
        Tiles address gap (start + covered gap left) right stop := by
  induction left generalizing start with
  | nil => simp [Tiles, covered]
  | cons piece rest induction =>
      rw [List.cons_append, Tiles, Tiles, induction, covered_cons, and_assoc,
        show start + (gap + piece.len) + covered gap rest =
          start + (gap + piece.len + covered gap rest) by omega]

theorem Tiles.congr (tiles : Tiles address gap start pieces stop)
    (same : ∀ piece ∈ pieces, newAddress piece.ptr = address piece.ptr) :
    Tiles newAddress gap start pieces stop := by
  induction pieces generalizing start with
  | nil => exact tiles
  | cons piece rest induction =>
      exact ⟨(same piece List.mem_cons_self).trans tiles.1,
        induction tiles.2 fun other member => same other (List.mem_cons_of_mem _ member)⟩

theorem Tiles.of_extent {newPieces : List Piece} (tiles : Tiles address gap start pieces stop)
    (same : newPieces.map Piece.extent = pieces.map Piece.extent) :
    Tiles address gap start newPieces stop := by
  induction pieces generalizing newPieces start with
  | nil =>
      rw [List.map_nil, List.map_eq_nil_iff] at same
      rw [same]
      exact tiles
  | cons first rest induction =>
      cases newPieces with
      | nil => cases same
      | cons newFirst newRest =>
          rw [List.map_cons, List.map_cons, List.cons.injEq, Piece.extent, Piece.extent,
            Prod.mk.injEq] at same
          obtain ⟨⟨samePtr, sameLen⟩, sameRest⟩ := same
          refine ⟨samePtr ▸ tiles.1, ?_⟩
          rw [sameLen]
          exact induction tiles.2 sameRest

theorem map_ptr_of_extent {newPieces : List Piece}
    (same : newPieces.map Piece.extent = pieces.map Piece.extent) :
    newPieces.map Piece.ptr = pieces.map Piece.ptr := by
  have mapped := congrArg (List.map Prod.fst) same
  simpa [Piece.extent, Function.comp_def] using mapped

theorem Tiles.stop_eq (tiles : Tiles address gap start pieces stop) :
    stop = start + covered gap pieces := by
  induction pieces generalizing start with
  | nil => exact tiles.symm
  | cons piece rest induction =>
      rw [induction tiles.2, covered_cons]
      omega

/-- Where a piece of a tiling starts. -/
theorem Tiles.address_eq (tiles : Tiles address gap start (before ++ piece :: after) stop) :
    address piece.ptr = start + covered gap before :=
  (tiles_append.mp tiles).2.1

theorem Tiles.join {left right : Piece}
    (tiles : Tiles address gap start (before ++ left :: right :: after) stop) :
    Tiles address gap start (before ++ left.joined gap right :: after) stop := by
  rw [tiles_append] at tiles ⊢
  obtain ⟨front, leftAddress, _, rest⟩ := tiles
  have sameStart : start + covered gap before + (gap + left.len) + (gap + right.len) =
      start + covered gap before + (gap + (left.len + (gap + right.len))) := by
    omega
  exact ⟨front, leftAddress, sameStart ▸ rest⟩

end Tiling

end MallocSurvey.Library
