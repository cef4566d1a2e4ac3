import MallocSurvey.Tlsf.Resizing

/-! # Moving blocks -/

namespace MallocSurvey.Tlsf

open Library

variable {pools : List (Nat × Nat)} {control : Control} {pieces before after : List Piece}
  {piece : Piece} {lists : Nat × Nat → List Nat} {loose : List Nat} {size : Nat}

/-- The bytes of used blocks are not part of the representation. -/
theorem Rep.overwrite (rep : Rep pools control pieces lists loose) {newMemory : Memory}
    (same : ∀ place, (∀ piece ∈ usedPieces pieces,
      ¬ (piece.ptr + 16 ≤ place ∧ place < piece.ptr + 16 + piece.len)) →
        newMemory place = control.memory place) :
    Rep pools { control with memory := newMemory } pieces lists loose := by
  have header : ∀ piece ∈ pieces, ∀ place, Owns 8 piece place →
      (piece.free = true ∨ place < piece.ptr + 16) → newMemory place = control.memory place := by
    intro piece member place owned isHeader
    apply same
    intro other used inside
    obtain ⟨otherMember, notFree⟩ := List.mem_filter.mp used
    by_cases isSame : piece = other
    · rcases isHeader with isFree | isTag
      · rw [isSame] at isFree
        simp [isFree] at notFree
      · rw [isSame] at isTag
        omega
    · have notOwned :=
        not_owns_of_apart (rep.laid.different_tiles member otherMember isSame) owned
      unfold Owns at notOwned
      omega
  constructor
  · exact rep.laid
  · apply rep.tagged.congr
    · intro piece member
      apply loadPointer_congr
      intro place low high
      exact header piece member place ⟨low, by omega⟩ (.inr (by omega))
    · intro piece member isFree
      apply loadPointer_congr
      intro place low high
      exact header piece member place ⟨by omega, by omega⟩ (.inl isFree)
  · have sameField : ∀ index, ∀ node ∈ lists index, ∀ name : Field, 16 ≤ name.offset →
        ({ control with memory := newMemory } : Control).field node name =
          control.field node name := by
      intro index node isListed name large
      obtain ⟨piece, member, isPtr, isFree, _⟩ := (rep.listed index node).mp isListed
      have least := rep.laid.free_len member isFree
      have bound : name.offset + 8 ≤ 32 := by cases name <;> decide
      apply loadPointer_congr
      intro place low high
      exact header piece member place ⟨by omega, by omega⟩ (.inl isFree)
    apply rep.segregated.congr
    · exact fun index node isListed => sameField index node isListed .nextFree (by decide)
    · exact fun index node isListed => sameField index node isListed .prevFree (by decide)
  · exact rep.marked
  · exact rep.listed

namespace Control

/-- Bytes are copied into a used block. -/
theorem copy_spec (rep : Rep pools control pieces lists loose) (source : Nat) {length : Nat}
    (member : piece ∈ usedPieces pieces) (fits : length ≤ piece.len) :
    Rep pools (control.copy (piece.ptr + 16) source length) pieces lists loose ∧
      Kept ((usedPieces pieces).erase piece) control.memory
        (control.copy (piece.ptr + 16) source length).memory ∧
      ∀ offset < length, (control.copy (piece.ptr + 16) source length).memory
        (piece.ptr + 16 + offset) = control.memory (source + offset) := by
  refine ⟨rep.overwrite ?_, ?_, ?_⟩
  · intro place outside
    have notInside := outside piece member
    rw [if_neg (by omega)]
  · intro other held place low high
    have nodup : (usedPieces pieces).Nodup :=
      (List.Nodup.of_map _ rep.laid.ptr_nodup).filter _
    obtain ⟨different, used⟩ := nodup.mem_erase_iff.mp held
    have apart := rep.laid.different_tiles (used_subset other used) (used_subset piece member)
      different
    unfold Extent.Apart Apart tile at apart
    dsimp only at apart
    unfold copy
    dsimp only
    rw [if_neg (by omega)]
  · intro offset small
    unfold copy
    dsimp only
    rw [if_pos (by omega), Nat.add_sub_cancel_left]

/-- The moved block lies in what was a free block, and the old one is released. -/
structure Moved (before : List Piece) (piece : Piece) (after : List Piece) (adjust ptr : Nat)
    (pieces : List Piece) : Prop where
  shape : ∃ left target right middle first last, before ++ piece :: after = left ++ target :: right ∧
    target.free = true ∧ Obtained 8 adjust target middle ∧
    left ++ (middle ++ right) = first ++ piece :: last ∧ ptr = target.ptr + 16 ∧
    pieces = released 8 first piece last

theorem reallocMove_spec (rep : Rep pools control (before ++ piece :: after) lists [])
    (isUsed : piece.free = false) (notSentinel : piece.len ≠ 0)
    (searchable : Searchable (adjustRequestSize .bits64 size 8))
    (holds : size ≤ adjustRequestSize .bits64 size 8) :
    (control.reallocMove (piece.ptr + 16) size piece.len = some (control, 0) ∧
        NoneFits (before ++ piece :: after) (adjustRequestSize .bits64 size 8)) ∨
      ∃ new newLists pieces ptr,
        control.reallocMove (piece.ptr + 16) size piece.len = some (new, ptr) ∧ ptr ≠ 0 ∧
        Rep pools new pieces newLists [] ∧
        Moved before piece after (adjustRequestSize .bits64 size 8) ptr pieces ∧
        Kept (usedPieces (before ++ after)) control.memory new.memory ∧
        ∀ offset < min piece.len size,
          new.memory (ptr + offset) = control.memory (piece.ptr + 16 + offset) := by
  unfold reallocMove
  rcases tlsfMalloc_spec rep searchable with ⟨isNone, noneFits⟩ |
    ⟨served, servedLists, left, target, right, middle, isPieces, targetFree, obtained, isServed,
      servedRep, servedKept⟩
  · refine .inl ⟨?_, noneFits⟩
    rw [isNone]
    rfl
  · right
    have nodup := rep.laid.ptr_nodup
    have pieceUsed : piece ∈ usedPieces (left ++ right) := by
      have held : piece ∈ usedPieces (before ++ piece :: after) :=
        List.mem_filter.mpr ⟨by simp, by simp [isUsed]⟩
      rwa [isPieces, usedPieces_append, usedPieces_cons_free targetFree, ← usedPieces_append] at held
    have pieceMember : piece ∈ left ++ (middle ++ right) := by
      rcases List.mem_append.mp (used_subset piece pieceUsed) with inLeft | inRight
      · exact List.mem_append_left _ inLeft
      · exact List.mem_append_right _ (List.mem_append_right _ inRight)
    obtain ⟨len, large, isServedUsed⟩ := usedPieces_obtained obtained left right
    rw [List.append_assoc] at isServedUsed
    have targetMember : target ∈ before ++ piece :: after := by
      rw [isPieces]
      simp
    -- the block that was handed out
    have freshUsed : (⟨target.ptr, len, false⟩ : Piece) ∈ usedPieces (left ++ (middle ++ right)) := by
      rw [isServedUsed]
      simp
    have notSame : piece.ptr ≠ target.ptr := by
      intro same
      have isTarget := rep.laid.ptr_inj (show piece ∈ _ by simp) targetMember same
      rw [isTarget, targetFree] at isUsed
      cases isUsed
    have fits : min piece.len size ≤ len := by omega
    obtain ⟨copiedRep, copiedKept, isCopied⟩ :=
      copy_spec servedRep (piece.ptr + 16) freshUsed fits
    obtain ⟨first, last, isSplit⟩ := List.append_of_mem pieceMember
    have usedNodup : (usedPieces (left ++ (middle ++ right))).Nodup :=
      (List.Nodup.of_map _ servedRep.laid.ptr_nodup).filter _
    rw [isSplit] at copiedRep
    obtain ⟨new, newLists, isFreed, newRep, freedKept⟩ := tlsfFree_spec copiedRep isUsed notSentinel
    have heldLast : ∀ other ∈ usedPieces (left ++ (middle ++ right)), other ≠ piece →
        other ∈ usedPieces (first ++ last) := by
      intro other held different
      rw [isSplit, usedPieces_append, usedPieces_cons_used isUsed] at held
      rw [usedPieces_append]
      rcases List.mem_append.mp held with inFirst | held
      · exact List.mem_append_left _ inFirst
      · exact List.mem_append_right _ ((List.mem_cons.mp held).resolve_left different)
    refine ⟨new, newLists, _, target.ptr + 16, ?_, by omega, newRep,
      ⟨left, target, right, middle, first, last, isPieces, targetFree, obtained, isSplit, rfl, rfl⟩,
      ?_, ?_⟩
    · rw [isServed, some_bind]
      dsimp only
      rw [if_pos (show target.ptr + 16 ≠ 0 by omega)]
      have isFreed : (served.copy (target.ptr + 16) (piece.ptr + 16) (min piece.len size)).tlsfFree
          (piece.ptr + 16) = some new := isFreed
      rw [isFreed]
      rfl
    · intro other held place low high
      have different : other ≠ piece := by
        rintro rfl
        rw [List.map_append, List.map_cons, List.nodup_middle, List.nodup_cons,
          ← List.map_append] at nodup
        exact nodup.1 (List.mem_map_of_mem (used_subset _ held))
      have inOld : other ∈ usedPieces (left ++ right) := by
        have held := held_subset before [piece] after other held
        rwa [List.singleton_append, isPieces, usedPieces_append, usedPieces_cons_free targetFree,
          ← usedPieces_append] at held
      have inServed := held_subset left middle right other inOld
      have notFresh : other ≠ ⟨target.ptr, len, false⟩ := by
        intro isFresh
        have samePtr : other.ptr = target.ptr := by rw [isFresh]
        have isTarget := rep.laid.ptr_inj
          (used_subset other (held_subset before [piece] after other held)) targetMember samePtr
        have otherUsed := (List.mem_filter.mp held).2
        rw [isTarget, targetFree] at otherUsed
        cases otherUsed
      have inCopied : other ∈ (usedPieces (left ++ (middle ++ right))).erase ⟨target.ptr, len, false⟩ :=
        usedNodup.mem_erase_iff.mpr ⟨notFresh, inServed⟩
      rw [freedKept other (heldLast other inServed different) place low high,
        copiedKept other inCopied place low high, servedKept other inOld place low high]
    · intro offset small
      have freshKept := freedKept ⟨target.ptr, len, false⟩
        (heldLast _ freshUsed (fun same => notSame (by rw [← same])))
        (target.ptr + 16 + offset) (by dsimp only; omega) (by dsimp only; omega)
      rw [freshKept, isCopied offset small,
        servedKept piece pieceUsed _ (by omega) (by omega)]

end Control

end MallocSurvey.Tlsf
