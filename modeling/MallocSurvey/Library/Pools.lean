import MallocSurvey.Library.ByteMemory
import MallocSurvey.Library.Coalescing
import MallocSurvey.Library.Extents

/-! # Pieces in pools

Pieces lie one after the other in pools, each of which ends with a sentinel, a used piece
without bytes. The second word of a piece is its tag, and the first word belongs to the
piece before it: a piece owns its tag, its bytes and the first word of the next piece. -/

namespace MallocSurvey.Library

/-! ## Pools -/

def sentinel (ptr : Nat) : Piece := ⟨ptr, 0, false⟩

/-- The pieces lie in the pools, from a place in the first one and from the start of each
other one to its end. -/
def Pooled (gap : Nat) : List (Nat × Nat) → List Piece → Prop
  | [], [] => True
  | (place, stop) :: pools, piece :: rest =>
      piece.ptr = place ∧
        if piece.len = 0 then place = stop ∧ piece.free = false ∧ Pooled gap pools rest
        else Pooled gap ((place + (gap + piece.len), stop) :: pools) rest
  | _, _ => False

/-- What a piece owns. -/
def tile (gap : Nat) (piece : Piece) : Extent := ⟨piece.ptr + 8, gap + piece.len⟩

/-- What the pieces of a pool own. -/
def poolExtent (gap : Nat) (pool : Nat × Nat) : Extent := ⟨pool.1 + 8, pool.2 + gap - pool.1⟩

namespace Pooled

variable {gap : Nat} {pools : List (Nat × Nat)} {pieces before middle other after : List Piece}
  {piece : Piece} {place stop : Nat}

theorem cons_of_ne (noSentinel : piece.len ≠ 0) :
    Pooled gap ((place, stop) :: pools) (piece :: after) ↔
      piece.ptr = place ∧ Pooled gap ((place + (gap + piece.len), stop) :: pools) after := by
  rw [Pooled, if_neg noSentinel]

theorem cons_of_eq (isSentinel : piece.len = 0) :
    Pooled gap ((place, stop) :: pools) (piece :: after) ↔
      piece.ptr = place ∧ place = stop ∧ piece.free = false ∧ Pooled gap pools after := by
  rw [Pooled, if_pos isSentinel]

/-- Pieces that are no sentinels move the place in the first pool. -/
theorem append_iff (noSentinel : ∀ piece ∈ middle, piece.len ≠ 0) :
    Pooled gap ((place, stop) :: pools) (middle ++ after) ↔
      Tiles id gap place middle (place + covered gap middle) ∧
        Pooled gap ((place + covered gap middle, stop) :: pools) after := by
  induction middle generalizing place with
  | nil => simp [Tiles, covered]
  | cons piece rest induction =>
      have isNone := noSentinel piece List.mem_cons_self
      rw [List.cons_append, cons_of_ne isNone,
        induction fun other member => noSentinel other (List.mem_cons_of_mem _ member),
        covered_cons, Tiles, and_assoc, id, Nat.add_assoc place]

/-- Pieces that are no sentinels take the place of others. -/
theorem replace (pooled : Pooled gap pools (before ++ (middle ++ after)))
    (nonempty : middle ≠ []) (noSentinel : ∀ piece ∈ middle, piece.len ≠ 0)
    (otherNoSentinel : ∀ piece ∈ other, piece.len ≠ 0)
    (tiles : ∀ place, Tiles id gap place middle (place + covered gap middle) →
      Tiles id gap place other (place + covered gap middle)) :
    Pooled gap pools (before ++ (other ++ after)) := by
  induction before generalizing pools with
  | nil =>
      cases pools with
      | nil =>
          obtain ⟨first, rest, isCons⟩ := List.exists_cons_of_ne_nil nonempty
          rw [isCons] at pooled
          exact pooled.elim
      | cons pool pools =>
          obtain ⟨place, stop⟩ := pool
          rw [List.nil_append] at pooled ⊢
          rw [append_iff noSentinel] at pooled
          have otherTiles := tiles place pooled.1
          have sameEnd : place + covered gap other = place + covered gap middle :=
            otherTiles.stop_eq.symm
          rw [append_iff otherNoSentinel, sameEnd]
          exact ⟨otherTiles, pooled.2⟩
  | cons first before induction =>
      cases pools with
      | nil => exact pooled.elim
      | cons pool pools =>
          obtain ⟨place, stop⟩ := pool
          rw [List.cons_append] at pooled ⊢
          by_cases isSentinel : first.len = 0
          · rw [cons_of_eq isSentinel] at pooled ⊢
            exact ⟨pooled.1, pooled.2.1, pooled.2.2.1, induction pooled.2.2.2⟩
          · rw [cons_of_ne isSentinel] at pooled ⊢
            exact ⟨pooled.1, induction pooled.2⟩

/-- The pieces of the first pool. -/
theorem first_pool (pooled : Pooled gap ((place, stop) :: pools) pieces) :
    ∃ group rest, pieces = group ++ sentinel stop :: rest ∧ Tiles id gap place group stop ∧
      (∀ piece ∈ group, piece.len ≠ 0) ∧ Pooled gap pools rest := by
  induction pieces generalizing place with
  | nil => exact pooled.elim
  | cons first rest induction =>
      by_cases isSentinel : first.len = 0
      · obtain ⟨isPlace, isStop, isUsed, restPooled⟩ := (cons_of_eq isSentinel).mp pooled
        refine ⟨[], rest, ?_, isStop, nofun, restPooled⟩
        have isFirst : first = sentinel stop := by
          cases first
          simp_all [sentinel]
        rw [isFirst]
        rfl
      · obtain ⟨isPlace, restPooled⟩ := (cons_of_ne isSentinel).mp pooled
        obtain ⟨group, others, isSplit, tiles, noSentinel, othersPooled⟩ := induction restPooled
        refine ⟨first :: group, others, by rw [isSplit, List.cons_append], ⟨isPlace, tiles⟩, ?_,
          othersPooled⟩
        intro piece member
        rcases List.mem_cons.mp member with isFirst | member
        · exact isFirst ▸ isSentinel
        · exact noSentinel piece member

/-- A piece that is no sentinel is followed by another one. -/
theorem next (pooled : Pooled gap pools (before ++ piece :: after))
    (noSentinel : piece.len ≠ 0) :
    ∃ next rest, after = next :: rest ∧ next.ptr = piece.ptr + (gap + piece.len) := by
  induction before generalizing pools with
  | nil =>
      cases pools with
      | nil => exact pooled.elim
      | cons pool pools =>
          obtain ⟨isPlace, restPooled⟩ := (cons_of_ne noSentinel).mp pooled
          cases after with
          | nil => exact restPooled.elim
          | cons next rest => exact ⟨next, rest, rfl, isPlace ▸ restPooled.1⟩
  | cons first before induction =>
      cases pools with
      | nil => exact pooled.elim
      | cons pool pools =>
          by_cases isSentinel : first.len = 0
          · exact induction ((cons_of_eq isSentinel).mp pooled).2.2.2
          · exact induction ((cons_of_ne isSentinel).mp pooled).2

/-- The place in the first pool is not behind its end. -/
theorem place_le (pooled : Pooled gap ((place, stop) :: pools) pieces) : place ≤ stop := by
  induction pieces generalizing place with
  | nil => exact pooled.elim
  | cons first rest induction =>
      by_cases isSentinel : first.len = 0
      · exact ((cons_of_eq isSentinel).mp pooled).2.1.le
      · exact (Nat.le_add_right _ _).trans (induction ((cons_of_ne isSentinel).mp pooled).2)

/-- A piece lies in one of the pools. -/
theorem inside (pooled : Pooled gap pools pieces) (member : piece ∈ pieces) :
    ∃ pool ∈ pools, pool.1 ≤ piece.ptr ∧ piece.ptr + piece.len ≤ pool.2 ∧
      (piece.len ≠ 0 → piece.ptr + (gap + piece.len) ≤ pool.2) := by
  induction pieces generalizing pools with
  | nil => cases member
  | cons first rest induction =>
      cases pools with
      | nil => exact pooled.elim
      | cons pool pools =>
          obtain ⟨place, stop⟩ := pool
          by_cases isSentinel : first.len = 0
          · obtain ⟨isPlace, isStop, _, restPooled⟩ := (cons_of_eq isSentinel).mp pooled
            rcases List.mem_cons.mp member with isFirst | member
            · refine ⟨_, List.mem_cons_self, ?_⟩
              rw [isFirst]
              omega
            · obtain ⟨pool, isPool, bounds⟩ := induction restPooled member
              exact ⟨pool, List.mem_cons_of_mem _ isPool, bounds⟩
          · obtain ⟨isPlace, restPooled⟩ := (cons_of_ne isSentinel).mp pooled
            rcases List.mem_cons.mp member with isFirst | member
            · refine ⟨_, List.mem_cons_self, ?_⟩
              have bound := restPooled.place_le
              rw [isFirst]
              omega
            · obtain ⟨pool, isPool, bounds⟩ := induction restPooled member
              rcases List.mem_cons.mp isPool with isHead | isPool
              · refine ⟨_, List.mem_cons_self, ?_⟩
                rw [isHead] at bounds
                omega
              · exact ⟨pool, List.mem_cons_of_mem _ isPool, bounds⟩

theorem tile_inside (pooled : Pooled gap pools pieces) (member : piece ∈ pieces) :
    ∃ pool ∈ pools, (tile gap piece).Inside (poolExtent gap pool) := by
  obtain ⟨pool, isPool, low, high, highNext⟩ := pooled.inside member
  refine ⟨pool, isPool, ?_⟩
  unfold Extent.Inside tile poolExtent
  dsimp only
  by_cases isSentinel : piece.len = 0
  · omega
  · have bound := highNext isSentinel
    omega

/-- A free piece is no sentinel. -/
theorem len_ne (pooled : Pooled gap pools pieces) (member : piece ∈ pieces)
    (isFree : piece.free = true) : piece.len ≠ 0 := by
  induction pieces generalizing pools with
  | nil => cases member
  | cons first rest induction =>
      cases pools with
      | nil => exact pooled.elim
      | cons pool pools =>
          obtain ⟨place, stop⟩ := pool
          by_cases isSentinel : first.len = 0
          · obtain ⟨_, _, isUsed, restPooled⟩ := (cons_of_eq isSentinel).mp pooled
            rcases List.mem_cons.mp member with isFirst | member
            · rw [← isFirst, isFree] at isUsed
              cases isUsed
            · exact induction restPooled member
          · rcases List.mem_cons.mp member with isFirst | member
            · exact isFirst ▸ isSentinel
            · exact induction ((cons_of_ne isSentinel).mp pooled).2 member

/-- If the pools and the lengths are aligned, so are the pieces. -/
theorem aligned {align : Nat} (pooled : Pooled gap pools pieces)
    (pools_aligned : ∀ pool ∈ pools, pool.1 % align = 0)
    (pieces_aligned : ∀ piece ∈ pieces, (gap + piece.len) % align = 0)
    (member : piece ∈ pieces) : piece.ptr % align = 0 := by
  induction pieces generalizing pools with
  | nil => cases member
  | cons first rest induction =>
      cases pools with
      | nil => exact pooled.elim
      | cons pool pools =>
          obtain ⟨place, stop⟩ := pool
          have placeAligned : place % align = 0 := pools_aligned _ List.mem_cons_self
          have restAligned := fun other isOther =>
            pieces_aligned other (List.mem_cons_of_mem _ isOther)
          by_cases isSentinel : first.len = 0
          · obtain ⟨isPlace, _, _, restPooled⟩ := (cons_of_eq isSentinel).mp pooled
            rcases List.mem_cons.mp member with isFirst | member
            · rw [isFirst, isPlace, placeAligned]
            · exact induction restPooled
                (fun pool isPool => pools_aligned pool (List.mem_cons_of_mem _ isPool))
                restAligned member
          · obtain ⟨isPlace, restPooled⟩ := (cons_of_ne isSentinel).mp pooled
            rcases List.mem_cons.mp member with isFirst | member
            · rw [isFirst, isPlace, placeAligned]
            · refine induction restPooled ?_ restAligned member
              intro pool isPool
              rcases List.mem_cons.mp isPool with isHead | isPool
              · have firstAligned := pieces_aligned first List.mem_cons_self
                rw [isHead, Nat.add_mod, placeAligned, firstAligned]
                rfl
              · exact pools_aligned pool (List.mem_cons_of_mem _ isPool)

/-- The pieces own different bytes. -/
theorem apart (pooled : Pooled gap pools pieces)
    (poolsApart : (pools.map (poolExtent gap)).Pairwise Extent.Apart) :
    (pieces.map (tile gap)).Pairwise Extent.Apart := by
  induction pieces generalizing pools with
  | nil => exact .nil
  | cons first rest induction =>
      cases pools with
      | nil => exact pooled.elim
      | cons pool pools =>
          obtain ⟨place, stop⟩ := pool
          have bound := place_le pooled
          rw [List.map_cons, List.pairwise_cons] at poolsApart
          rw [List.map_cons, List.pairwise_cons]
          by_cases isSentinel : first.len = 0
          · obtain ⟨isPlace, isStop, _, restPooled⟩ := (cons_of_eq isSentinel).mp pooled
            refine ⟨?_, induction restPooled poolsApart.2⟩
            intro other isOther
            obtain ⟨piece, member, isTile⟩ := List.mem_map.mp isOther
            obtain ⟨pool, isPool, inside⟩ := restPooled.tile_inside member
            have between := poolsApart.1 _ (List.mem_map_of_mem isPool)
            refine isTile ▸ between.parts ?_ inside
            unfold Extent.Inside tile poolExtent
            dsimp only
            omega
          · obtain ⟨isPlace, restPooled⟩ := (cons_of_ne isSentinel).mp pooled
            have restBound := restPooled.place_le
            have shorter : (poolExtent gap (place + (gap + first.len), stop)).Inside
                (poolExtent gap (place, stop)) := by
              unfold Extent.Inside poolExtent
              dsimp only
              omega
            refine ⟨?_, induction restPooled ?_⟩
            · intro other isOther
              obtain ⟨piece, member, isTile⟩ := List.mem_map.mp isOther
              obtain ⟨pool, isPool, inside⟩ := restPooled.tile_inside member
              rw [← isTile]
              rcases List.mem_cons.mp isPool with isHead | isPool
              · rw [isHead] at inside
                unfold Extent.Inside Extent.Apart Apart tile poolExtent at *
                dsimp only at *
                omega
              · have between := poolsApart.1 _ (List.mem_map_of_mem isPool)
                refine between.parts ?_ inside
                unfold Extent.Inside tile poolExtent
                dsimp only
                omega
            · rw [List.map_cons, List.pairwise_cons]
              exact ⟨fun other member => (poolsApart.1 other member).inside shorter, poolsApart.2⟩

/-! ## Adding and removing pools -/

variable {others : List (Nat × Nat)}

theorem append (left : Pooled gap pools before) (right : Pooled gap others after) :
    Pooled gap (pools ++ others) (before ++ after) := by
  induction before generalizing pools with
  | nil =>
      cases pools with
      | nil => exact right
      | cons => exact left.elim
  | cons first rest induction =>
      cases pools with
      | nil => exact left.elim
      | cons pool pools =>
          obtain ⟨place, stop⟩ := pool
          rw [List.cons_append]
          by_cases isSentinel : first.len = 0
          · obtain ⟨isPlace, isStop, isUsed, restPooled⟩ := (cons_of_eq isSentinel).mp left
            exact (cons_of_eq isSentinel).mpr ⟨isPlace, isStop, isUsed, induction restPooled⟩
          · obtain ⟨isPlace, restPooled⟩ := (cons_of_ne isSentinel).mp left
            exact (cons_of_ne isSentinel).mpr ⟨isPlace, induction restPooled⟩

/-- The pieces of one of the pools. -/
theorem split (pooled : Pooled gap (pools ++ (place, stop) :: others) pieces) :
    ∃ before group after, pieces = before ++ (group ++ sentinel stop :: after) ∧
      Pooled gap pools before ∧ Tiles id gap place group stop ∧
      (∀ piece ∈ group, piece.len ≠ 0) ∧ Pooled gap others after := by
  induction pools generalizing pieces with
  | nil =>
      obtain ⟨group, rest, isSplit, tiles, noSentinel, restPooled⟩ := pooled.first_pool
      exact ⟨[], group, rest, isSplit, trivial, tiles, noSentinel, restPooled⟩
  | cons pool pools induction =>
      obtain ⟨first, last⟩ := pool
      have pooled : Pooled gap ((first, last) :: (pools ++ (place, stop) :: others)) pieces :=
        pooled
      obtain ⟨group, rest, isSplit, tiles, noSentinel, restPooled⟩ := pooled.first_pool
      obtain ⟨before, own, after, isRest, pooledBefore, ownTiles, ownNoSentinel, pooledAfter⟩ :=
        induction restPooled
      refine ⟨group ++ sentinel last :: before, own, after, ?_, ?_, ownTiles, ownNoSentinel,
        pooledAfter⟩
      · rw [isSplit, isRest, List.append_assoc, List.cons_append]
      · rw [append_iff noSentinel]
        have isEnd : first + covered gap group = last := tiles.stop_eq.symm
        rw [isEnd]
        exact ⟨tiles, (cons_of_eq rfl).mpr ⟨rfl, rfl, rfl, pooledBefore⟩⟩

end Pooled

end MallocSurvey.Library
