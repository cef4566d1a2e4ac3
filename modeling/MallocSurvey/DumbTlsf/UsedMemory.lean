import MallocSurvey.DumbTlsf.Safety

/-! # What `dused_memory` counts

The chunks are linked through their headers, which no call writes to after the chunk
was made. The used memory is what was carved from them, and the tails that were left
when the next chunk was made. -/

namespace MallocSurvey.DumbTlsf

open Library

/-- The headers of the chunks, the newest in front, lie outside the pieces. -/
structure Counted (heap : Heap) (pieces chunks : List Extent) : Prop where
  res : heap.res = (chunks.map Extent.start).headD 0
  prev : Linked id (loadPointer heap.memory) (chunks.map Extent.start)
  size : ∀ chunk ∈ chunks, loadPointer heap.memory (chunk.start + 8) = chunk.length
  wide : ∀ chunk ∈ chunks, sizeofHeader ≤ chunk.length
  reserved : ∀ chunk ∈ chunks, chunk ∈ heap.reserved
  chunksApart : chunks.Pairwise Extent.Apart
  apart : ∀ chunk ∈ chunks, ∀ piece ∈ pieces,
    Extent.Apart ⟨chunk.start, sizeofHeader⟩ piece
  limit : ∀ chunk ∈ chunks.head?, chunk.start + sizeofHeader ≤ heap.limit ∧
    heap.chunkEnd = chunk.start + chunk.length
  unused : chunks = [] → heap.chunkEnd = heap.limit

/-- The bytes of the chunks without the tail. -/
def usedOf (heap : Heap) (chunks : List Extent) : Nat :=
  (chunks.map Extent.length).sum - (heap.chunkEnd - heap.limit)

theorem counted_initial (memory : Memory) (pieces : List Extent) :
    Counted (Heap.initial memory) pieces [] where
  res := rfl
  prev := trivial
  size _ member := by cases member
  wide _ member := by cases member
  reserved _ member := by cases member
  chunksApart := .nil
  apart _ member := by cases member
  limit _ member := by cases member
  unused _ := rfl

namespace Counted

variable {heap : Heap} {pieces chunks : List Extent}

/-- The pieces may be cut and dropped. -/
theorem mono (counted : Counted heap pieces chunks) {parts : List Extent}
    (inside : ∀ part ∈ parts, ∃ piece ∈ pieces, part.Inside piece) :
    Counted heap parts chunks :=
  { counted with
    apart := by
      intro chunk isChunk part isPart
      obtain ⟨piece, isPiece, within⟩ := inside part isPart
      exact ((counted.apart chunk isChunk piece isPiece).symm.inside within).symm }

/-- Words inside a piece may be written. -/
theorem write (counted : Counted heap pieces chunks) {piece : Extent}
    (isPiece : piece ∈ pieces) {place : Nat} (inside : Extent.Inside ⟨place, 8⟩ piece)
    (value : Nat) :
    Counted { heap with memory := storePointer heap.memory place value } pieces chunks := by
  have outside : ∀ chunk ∈ chunks, ∀ offset, offset + 8 ≤ sizeofHeader →
      loadPointer (storePointer heap.memory place value) (chunk.start + offset) =
        loadPointer heap.memory (chunk.start + offset) := by
    intro chunk isChunk offset within
    apply loadPointer_storePointer_apart
    have between := counted.apart chunk isChunk piece isPiece
    unfold Extent.Apart Library.Apart Extent.Inside sizeofHeader at *
    dsimp only at between inside
    omega
  exact { counted with
    prev := by
      apply counted.prev.congr
      intro start member
      obtain ⟨chunk, isChunk, rfl⟩ := List.mem_map.mp member
      exact outside chunk isChunk 0 (by decide)
    size := by
      intro chunk isChunk
      rw [outside chunk isChunk 8 (by decide)]
      exact counted.size chunk isChunk }

theorem setTable (counted : Counted heap pieces chunks) (table : Nat → Nat) :
    Counted { heap with table := table } pieces chunks :=
  { counted with }

/-- Carving from the tail. -/
theorem advance (counted : Counted heap pieces chunks) {esize : Nat}
    (nonempty : chunks ≠ []) :
    Counted { heap with limit := heap.limit + esize } pieces chunks :=
  { counted with
    limit := by
      intro chunk isHead
      have current := counted.limit chunk isHead
      exact ⟨Nat.le_add_right_of_le current.1, current.2⟩
    unused := fun empty => absurd empty nonempty }

/-- A region of the system beside the chunks. -/
theorem reserve (counted : Counted heap pieces chunks) {region : Extent}
    (apart : ∀ other ∈ heap.reserved, region.Apart other) :
    Counted { heap with reserved := region :: heap.reserved } (region :: pieces) chunks :=
  { counted with
    reserved := fun chunk isChunk => List.mem_cons_of_mem _ (counted.reserved chunk isChunk)
    apart := by
      intro chunk isChunk piece isPiece
      rcases List.mem_cons.mp isPiece with isRegion | isPiece
      · subst isRegion
        have between := (apart chunk (counted.reserved chunk isChunk)).symm
        exact between.inside ⟨Nat.le_refl _, Nat.add_le_add_left (counted.wide chunk isChunk) _⟩
      · exact counted.apart chunk isChunk piece isPiece }

/-- What `dreserve` and a new chunk do: the header is written and the rest is the tail. -/
theorem push (counted : Counted heap pieces chunks) {answer size : Nat}
    (fresh : Fresh heap ⟨answer, size⟩) (wide : sizeofHeader ≤ size) (sizeLt : size < 2 ^ 64)
    (chunkLt : ∀ chunk ∈ chunks, chunk.start < 2 ^ 64) :
    Counted
      { heap with
        reserved := ⟨answer, size⟩ :: heap.reserved
        memory := storePointer (storePointer heap.memory answer heap.res) (answer + 8) size
        limit := answer + sizeofHeader
        res := answer
        chunkEnd := answer + size }
      (⟨answer + sizeofHeader, size - sizeofHeader⟩ ::
        pieces.filter fun piece => decide (Extent.Apart ⟨answer, size⟩ piece))
      (⟨answer, size⟩ :: chunks) := by
  have outside : ∀ chunk ∈ chunks, ∀ offset, offset + 8 ≤ sizeofHeader →
      loadPointer (storePointer (storePointer heap.memory answer heap.res) (answer + 8) size)
          (chunk.start + offset) =
        loadPointer heap.memory (chunk.start + offset) := by
    intro chunk isChunk offset within
    have between := fresh.apart chunk (counted.reserved chunk isChunk)
    have chunkWide := counted.wide chunk isChunk
    unfold Extent.Apart Library.Apart sizeofHeader at *
    dsimp only at between
    rw [loadPointer_storePointer_apart (by unfold Library.Apart; omega),
      loadPointer_storePointer_apart (by unfold Library.Apart; omega)]
  have headLt : (chunks.map Extent.start).headD 0 < 2 ^ 64 := by
    cases chunks with
    | nil => exact Nat.two_pow_pos 64
    | cons chunk rest => exact chunkLt chunk List.mem_cons_self
  exact {
    res := rfl
    prev := by
      refine ⟨Nat.ne_of_gt fresh.nonzero, ?_, ?_⟩
      · change loadPointer _ answer = _
        rw [loadPointer_storePointer_apart (by unfold Library.Apart; omega), counted.res,
          loadPointer_storePointer headLt]
      · apply counted.prev.congr
        intro start member
        obtain ⟨chunk, isChunk, rfl⟩ := List.mem_map.mp member
        exact outside chunk isChunk 0 (by decide)
    size := by
      intro chunk isChunk
      rcases List.mem_cons.mp isChunk with isNew | isChunk
      · subst isNew
        exact loadPointer_storePointer sizeLt
      · rw [outside chunk isChunk 8 (by decide)]
        exact counted.size chunk isChunk
    wide := by
      intro chunk isChunk
      rcases List.mem_cons.mp isChunk with isNew | isChunk
      · exact isNew ▸ wide
      · exact counted.wide chunk isChunk
    reserved := by
      intro chunk isChunk
      rcases List.mem_cons.mp isChunk with isNew | isChunk
      · exact isNew ▸ List.mem_cons_self
      · exact List.mem_cons_of_mem _ (counted.reserved chunk isChunk)
    chunksApart := by
      refine List.pairwise_cons.mpr ⟨?_, counted.chunksApart⟩
      intro chunk isChunk
      exact fresh.apart chunk (counted.reserved chunk isChunk)
    apart := by
      intro chunk isChunk piece isPiece
      rcases List.mem_cons.mp isChunk with isNew | isChunk
      · subst isNew
        rcases List.mem_cons.mp isPiece with isTail | isPiece
        · exact isTail ▸ .inr (.inr (.inl (Nat.le_refl _)))
        · have between := of_decide_eq_true (List.mem_filter.mp isPiece).2
          exact between.inside ⟨Nat.le_refl _, Nat.add_le_add_left wide _⟩
      · rcases List.mem_cons.mp isPiece with isTail | isPiece
        · subst isTail
          have between := fresh.apart chunk (counted.reserved chunk isChunk)
          have tailInside : Extent.Inside ⟨answer + sizeofHeader, size - sizeofHeader⟩
              ⟨answer, size⟩ := by
            unfold Extent.Inside
            dsimp only
            omega
          exact ((between.inside tailInside).symm.inside
            ⟨Nat.le_refl _, Nat.add_le_add_left (counted.wide chunk isChunk) _⟩)
        · exact counted.apart chunk isChunk piece (List.mem_of_mem_filter isPiece)
    limit := by
      intro chunk isHead
      cases isHead
      exact ⟨Nat.le_refl _, rfl⟩
    unused := fun empty => by cases empty }

/-! ## The sum -/

/-- The loop adds the lengths of the chunks. -/
theorem dreservedMemory_eq {heap : Heap} {chunks : List Extent}
    (prev : Linked id (loadPointer heap.memory) (chunks.map Extent.start))
    (size : ∀ chunk ∈ chunks, loadPointer heap.memory (chunk.start + 8) = chunk.length)
    (total : Nat) (bound : total + (chunks.map Extent.length).sum < 2 ^ 64) :
    dreservedMemory heap (chunks.length + 1) ((chunks.map Extent.start).headD 0) total =
      some (total + (chunks.map Extent.length).sum) := by
  induction chunks generalizing total with
  | nil => rfl
  | cons chunk rest induction =>
      rw [List.map_cons, List.sum_cons] at bound
      obtain ⟨nonzero, next, linked⟩ := prev
      unfold dreservedMemory
      change (if chunk.start = 0 then _ else _) = _
      rw [if_neg nonzero, List.map_cons, List.headD_cons]
      change loadPointer heap.memory chunk.start = _ at next
      rw [next, size chunk List.mem_cons_self, Nat.mod_eq_of_lt (by omega), List.length_cons,
        induction linked (fun other member => size other (List.mem_cons_of_mem _ member)) _
          (by omega), List.map_cons, List.sum_cons, Nat.add_assoc]

/-- `dused_memory` returns the used memory. -/
theorem dusedMemory_eq (counted : Counted heap pieces chunks)
    (tail : heap.limit ≤ heap.chunkEnd)
    (region : ∀ region ∈ heap.reserved,
      0 < region.start ∧ 0 < region.length ∧ region.start + region.length ≤ 2 ^ 64) :
    dusedMemory (chunks.length + 1) heap = some (usedOf heap chunks) := by
  have bound : (chunks.map Extent.length).sum ≤ 2 ^ 64 - 1 :=
    Extent.sum_length_le counted.chunksApart fun chunk isChunk => by
      have within := region chunk (counted.reserved chunk isChunk)
      exact ⟨within.1, within.2.2⟩
  have total := dreservedMemory_eq counted.prev counted.size 0 (by omega)
  have tailLe : heap.chunkEnd - heap.limit ≤ (chunks.map Extent.length).sum := by
    cases chunks with
    | nil =>
        rw [counted.unused rfl, Nat.sub_self]
        exact Nat.zero_le _
    | cons chunk rest =>
        have current := counted.limit chunk rfl
        rw [List.map_cons, List.sum_cons]
        omega
  unfold dusedMemory usedOf
  rw [counted.res, total, Nat.zero_add]
  simp only [Option.bind_eq_bind, Option.bind_some, pure, Option.some.injEq]
  omega

end Counted

end MallocSurvey.DumbTlsf
