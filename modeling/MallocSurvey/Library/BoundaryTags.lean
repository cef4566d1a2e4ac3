import MallocSurvey.Library.Pools

/-! # Boundary tags

The tag of a piece has its length, whether it is free and whether the piece before it is.
The first word is only valid after a free piece, which it points to. -/

namespace MallocSurvey.Library

variable {gap : Nat} {memory newMemory : Memory} {prevFree : Bool} {piece next : Piece}
  {pieces before middle other after rest : List Piece} {place : Nat}

/-- The length is a multiple of four, and the two lowest bits are flags. -/
def Piece.tag (piece : Piece) (prevFree : Bool) : Nat :=
  piece.len + piece.free.toNat + 2 * prevFree.toNat

/-- Whether the last piece is free, or what is before the first one if there is none. -/
def endFree : Bool → List Piece → Bool
  | prevFree, [] => prevFree
  | _, piece :: rest => endFree piece.free rest

def Tagged (gap : Nat) (memory : Memory) : Bool → List Piece → Prop
  | _, [] => True
  | prevFree, piece :: rest =>
      loadPointer memory (piece.ptr + 8) = piece.tag prevFree ∧
        (piece.free = true → loadPointer memory (piece.ptr + gap + piece.len) = piece.ptr) ∧
        Tagged gap memory piece.free rest

/-- The byte belongs to the piece. -/
def Owns (gap : Nat) (piece : Piece) (place : Nat) : Prop :=
  piece.ptr + 8 ≤ place ∧ place < piece.ptr + 8 + (gap + piece.len)

/-- Only bytes of some pieces and the tag of the next one change. -/
def Confined (gap : Nat) (middle : List Piece) (next : Piece) (memory newMemory : Memory) :
    Prop :=
  ∀ place, (∀ piece ∈ middle, ¬ Owns gap piece place) →
    ¬ (next.ptr + 8 ≤ place ∧ place < next.ptr + 16) → newMemory place = memory place

/-! ## Tags -/

namespace Piece

variable (aligned : piece.len % 4 = 0)

include aligned

theorem tag_len (prevFree : Bool) : piece.tag prevFree / 4 * 4 = piece.len := by
  have free := Bool.toNat_le piece.free
  have prev := Bool.toNat_le prevFree
  unfold tag
  omega

theorem tag_flags (prevFree : Bool) :
    piece.tag prevFree % 4 = piece.free.toNat + 2 * prevFree.toNat := by
  have free := Bool.toNat_le piece.free
  have prev := Bool.toNat_le prevFree
  unfold tag
  omega

theorem tag_free (prevFree : Bool) : piece.tag prevFree % 2 = piece.free.toNat := by
  have free := Bool.toNat_le piece.free
  unfold tag
  omega

theorem tag_prevFree (prevFree : Bool) : piece.tag prevFree / 2 % 2 = prevFree.toNat := by
  have free := Bool.toNat_le piece.free
  have prev := Bool.toNat_le prevFree
  unfold tag
  omega

end Piece

/-! ### The bits of a tag -/

section Bits

/-- Or with a number below four. -/
theorem or_small {value flags : Nat} (small : flags < 4) :
    value ||| flags = value / 4 * 4 + (value % 4 ||| flags) := by
  have split : value = value / 4 * 4 ||| value % 4 := by
    have bound := Nat.mod_lt value (show 0 < 4 by decide)
    have joined := Nat.two_pow_add_eq_or_of_lt (show value % 4 < 2 ^ 2 from bound) (value / 4)
    rw [Nat.mul_comm, ← joined]
    omega
  have orSmall : value % 4 ||| flags < 2 ^ 2 :=
    Nat.or_lt_two_pow (Nat.mod_lt value (by decide)) small
  have joined := Nat.two_pow_add_eq_or_of_lt orSmall (value / 4)
  conv_lhs => rw [split, Nat.or_assoc]
  rw [Nat.mul_comm, joined]

theorem len_or_small {len flags : Nat} (aligned : len % 4 = 0) (small : flags < 4) :
    len ||| flags = len + flags := by
  rw [or_small small, aligned, Nat.zero_or]
  omega

variable {piece : Piece} (aligned : piece.len % 4 = 0) (prevFree : Bool)

include aligned

theorem tag_or_one : piece.tag prevFree ||| 1 = piece.freed.tag prevFree := by
  rw [or_small (by decide), piece.tag_len aligned, piece.tag_flags aligned]
  cases piece.free <;> cases prevFree <;> rfl

theorem tag_or_two : piece.tag prevFree ||| 2 = piece.tag true := by
  rw [or_small (by decide), piece.tag_len aligned, piece.tag_flags aligned]
  unfold Piece.tag
  cases piece.free <;> cases prevFree <;> rfl

theorem tag_used : piece.tag prevFree / 2 * 2 = piece.used.tag prevFree := by
  have free := Bool.toNat_le piece.free
  unfold Piece.tag Piece.used
  simp only [Bool.toNat_false]
  omega

theorem tag_prevUsed :
    piece.tag prevFree / 4 * 4 + piece.tag prevFree % 2 = piece.tag false := by
  rw [piece.tag_len aligned, piece.tag_free aligned]
  unfold Piece.tag
  simp

/-- A length is stored below the flags. -/
theorem len_or_flags {len : Nat} (lenAligned : len % 4 = 0) :
    len ||| piece.tag prevFree % 4 = { piece with len := len }.tag prevFree := by
  have small : piece.tag prevFree % 4 < 4 := Nat.mod_lt _ (by decide)
  rw [len_or_small lenAligned small, piece.tag_flags aligned]
  unfold Piece.tag
  dsimp only
  omega

end Bits

@[simp] theorem endFree_nil : endFree prevFree [] = prevFree := rfl

@[simp] theorem endFree_cons : endFree prevFree (piece :: rest) = endFree piece.free rest := rfl

theorem endFree_append : endFree prevFree (before ++ after) = endFree (endFree prevFree before) after := by
  induction before generalizing prevFree with
  | nil => rfl
  | cons piece rest induction => exact induction

theorem endFree_concat : endFree prevFree (before ++ [piece]) = piece.free := by
  rw [endFree_append]
  rfl

theorem endFree_of_last (lastUsed : ∀ left ∈ before.getLast?, left.free = false) :
    endFree false before = false := by
  rcases List.eq_nil_or_concat before with isNil | ⟨rest, left, isConcat⟩
  · rw [isNil, endFree_nil]
  · rw [List.concat_eq_append] at isConcat
    subst isConcat
    rw [endFree_concat]
    exact lastUsed left (by simp)

/-- Pools end with used pieces. -/
theorem endFree_of_pooled {pools : List (Nat × Nat)} (pooled : Pooled gap pools pieces) :
    endFree false pieces = false := by
  induction pools generalizing pieces with
  | nil =>
      cases pieces with
      | nil => rfl
      | cons => exact pooled.elim
  | cons pool pools induction =>
      obtain ⟨group, rest, isSplit, _, _, restPooled⟩ := pooled.first_pool
      rw [isSplit, endFree_append, endFree_cons]
      exact induction restPooled

namespace Tagged

theorem append_iff : Tagged gap memory prevFree (before ++ after) ↔
    Tagged gap memory prevFree before ∧ Tagged gap memory (endFree prevFree before) after := by
  induction before generalizing prevFree with
  | nil => simp [Tagged]
  | cons piece rest induction => simp only [List.cons_append, Tagged, induction, endFree_cons, and_assoc]

/-- The words that are valid do not change. -/
theorem congr (tagged : Tagged gap memory prevFree pieces)
    (sameTag : ∀ piece ∈ pieces,
      loadPointer newMemory (piece.ptr + 8) = loadPointer memory (piece.ptr + 8))
    (sameLink : ∀ piece ∈ pieces, piece.free = true →
      loadPointer newMemory (piece.ptr + gap + piece.len) =
        loadPointer memory (piece.ptr + gap + piece.len)) :
    Tagged gap newMemory prevFree pieces := by
  induction pieces generalizing prevFree with
  | nil => trivial
  | cons first rest induction =>
      obtain ⟨isTag, isLink, restTagged⟩ := tagged
      refine ⟨(sameTag first List.mem_cons_self).trans isTag, ?_, induction restTagged ?_ ?_⟩
      · exact fun isFree => (sameLink first List.mem_cons_self isFree).trans (isLink isFree)
      · exact fun piece member => sameTag piece (List.mem_cons_of_mem _ member)
      · exact fun piece member => sameLink piece (List.mem_cons_of_mem _ member)

theorem congr_owned (tagged : Tagged gap memory prevFree pieces) (room : 8 ≤ gap)
    (same : ∀ piece ∈ pieces, ∀ place, Owns gap piece place → newMemory place = memory place) :
    Tagged gap newMemory prevFree pieces := by
  apply tagged.congr
  · intro piece member
    apply loadPointer_congr
    intro place low high
    exact same piece member place ⟨low, by omega⟩
  · intro piece member _
    apply loadPointer_congr
    intro place low high
    exact same piece member place ⟨by omega, by omega⟩

theorem tag_eq (tagged : Tagged gap memory prevFree (before ++ piece :: after)) :
    loadPointer memory (piece.ptr + 8) = piece.tag (endFree prevFree before) :=
  (append_iff.mp tagged).2.1

theorem link_eq (tagged : Tagged gap memory prevFree (before ++ piece :: after))
    (isFree : piece.free = true) :
    loadPointer memory (piece.ptr + gap + piece.len) = piece.ptr :=
  (append_iff.mp tagged).2.2.1 isFree

end Tagged

/-! ## Changes -/

/-- The bytes of some pieces stay. -/
def Kept (held : List Piece) (memory newMemory : Memory) : Prop :=
  ∀ piece ∈ held, ∀ place, piece.ptr + 16 ≤ place → place < piece.ptr + 16 + piece.len →
    newMemory place = memory place

namespace Kept

variable {held fewer : List Piece} {lastMemory : Memory}

theorem refl (held : List Piece) (memory : Memory) : Kept held memory memory :=
  fun _ _ _ _ _ => rfl

theorem trans (left : Kept held memory newMemory) (right : Kept held newMemory lastMemory) :
    Kept held memory lastMemory :=
  fun piece member place low high =>
    (right piece member place low high).trans (left piece member place low high)

theorem subset (kept : Kept held memory newMemory) (subset : ∀ piece ∈ fewer, piece ∈ held) :
    Kept fewer memory newMemory :=
  fun piece member => kept piece (subset piece member)

end Kept

section Changes

variable (apart : ((before ++ (middle ++ next :: rest)).map (tile gap)).Pairwise Extent.Apart)
  (confined : Confined gap middle next memory newMemory) (room : 8 ≤ gap)

theorem not_owns_of_apart {left right : Piece} (apart : (tile gap left).Apart (tile gap right))
    (owned : Owns gap left place) : ¬ Owns gap right place := by
  unfold Extent.Apart Apart tile Owns at *
  dsimp only at apart
  omega

include apart confined room

/-- The bytes of the other pieces stay. -/
theorem Confined.same (member : piece ∈ before ++ rest) (owned : Owns gap piece place) :
    newMemory place = memory place := by
  rw [List.map_append, List.map_append, List.map_cons, List.pairwise_append] at apart
  obtain ⟨_, inner, outer⟩ := apart
  rw [List.pairwise_append, List.pairwise_cons] at inner
  obtain ⟨_, ⟨nextRest, _⟩, middleRest⟩ := inner
  have tagOwned : next.ptr + 8 ≤ place ∧ place < next.ptr + 16 → Owns gap next place :=
    fun inTag => ⟨inTag.1, by omega⟩
  rcases List.mem_append.mp member with inBefore | inRest
  · have apartFrom : ∀ right ∈ middle ++ next :: rest, ¬ Owns gap right place := by
      intro right isRight
      have between := outer _ (List.mem_map_of_mem inBefore) (tile gap right)
        (by rw [← List.map_cons, ← List.map_append]; exact List.mem_map_of_mem isRight)
      exact not_owns_of_apart between owned
    apply confined
    · exact fun right isRight => apartFrom right (List.mem_append_left _ isRight)
    · exact fun inTag => apartFrom next (by simp) (tagOwned inTag)
  · apply confined
    · intro left isLeft
      have between := middleRest _ (List.mem_map_of_mem isLeft) _
        (List.mem_cons_of_mem _ (List.mem_map_of_mem inRest))
      exact not_owns_of_apart between.symm owned
    · intro inTag
      have between := nextRest _ (List.mem_map_of_mem inRest)
      exact not_owns_of_apart between.symm owned (tagOwned inTag)

/-- The bytes of the next piece stay, except for its tag. -/
theorem Confined.same_next (owned : Owns gap next place) (notTag : next.ptr + 16 ≤ place) :
    newMemory place = memory place := by
  rw [List.map_append, List.map_append, List.map_cons, List.pairwise_append] at apart
  obtain ⟨_, inner, _⟩ := apart
  apply confined
  · intro left isLeft
    have between := (List.pairwise_append.mp inner).2.2 _ (List.mem_map_of_mem isLeft) _
      List.mem_cons_self
    exact not_owns_of_apart between.symm owned
  · omega

/-- No byte after the tag of another piece changes. -/
theorem Confined.same_content (member : piece ∈ before ++ next :: rest)
    (owned : Owns gap piece place) (notTag : piece.ptr + 16 ≤ place) :
    newMemory place = memory place := by
  rcases List.mem_append.mp member with inBefore | isRest
  · exact Confined.same apart confined room (List.mem_append_left _ inBefore) owned
  · rcases List.mem_cons.mp isRest with isNext | inRest
    · exact Confined.same_next apart confined room (isNext ▸ owned) (isNext ▸ notTag)
    · exact Confined.same apart confined room (List.mem_append_right _ inRest) owned

theorem Confined.kept : Kept (before ++ next :: rest) memory newMemory :=
  fun _ member _ low high =>
    Confined.same_content apart confined room member ⟨by omega, by omega⟩ low

/-- Pieces take the place of others. -/
theorem Tagged.replace (tagged : Tagged gap memory prevFree (before ++ (middle ++ next :: rest)))
    (nextRoom : next.free = true → 16 ≤ gap + next.len)
    (otherTagged : Tagged gap newMemory (endFree prevFree before) other)
    (nextTag : loadPointer newMemory (next.ptr + 8) =
      next.tag (endFree (endFree prevFree before) other)) :
    Tagged gap newMemory prevFree (before ++ (other ++ next :: rest)) := by
  rw [append_iff, append_iff] at tagged
  obtain ⟨beforeTagged, _, _, nextLink, restTagged⟩ := tagged
  rw [append_iff, append_iff]
  refine ⟨beforeTagged.congr_owned room ?_, otherTagged, nextTag, ?_,
    restTagged.congr_owned room ?_⟩
  · intro piece member place owned
    exact Confined.same apart confined room (List.mem_append_left _ member) owned
  · intro isFree
    have isRoom := nextRoom isFree
    refine Eq.trans ?_ (nextLink isFree)
    apply loadPointer_congr
    intro place low high
    exact Confined.same_next apart confined room ⟨by omega, by omega⟩ (by omega)
  · intro piece member place owned
    exact Confined.same apart confined room (List.mem_append_right _ member) owned

end Changes

end MallocSurvey.Library
