import MallocSurvey.DumbTlsf.UsedMemory

/-! # What a request does to the used memory

A request is served by the system allocator, by a freed block of its list or by carving,
and only carving uses memory. Whether a reused block is large enough does not matter
for that. -/

namespace MallocSurvey.DumbTlsf

open Library

def classOf (size : Nat) : Nat := segregate (esizeof size)

/-- How a request of some bytes was served, and what that left. -/
inductive Served (heap : Heap) (free : List (FreeBlock Nat)) (chunks : List Extent)
    (request : Nat) (next : Heap) : List (FreeBlock Nat) → List Extent → Prop
  | malloc : maxSize < request → usedOf next chunks = usedOf heap chunks →
      Served heap free chunks request next free chunks
  | reused {block : FreeBlock Nat} : request ≤ maxSize →
      firstOf (classOf request) free = some block →
      usedOf next chunks = usedOf heap chunks →
      Served heap free chunks request next (dropFirst (classOf request) free) chunks
  | carved {nextChunks : List Extent} : request ≤ maxSize →
      firstOf (classOf request) free = none →
      usedOf heap chunks < usedOf next nextChunks →
      Served heap free chunks request next free nextChunks

/-- The invariants after a request that returned a block at `start`. -/
structure Serving (heap : Heap) (live : List Block) (free : List (FreeBlock Nat))
    (chunks : List Extent) (request start : Nat) (next : Heap) : Prop where
  word : sizeofSize ≤ State.roomFor ⟨heap, live, free⟩ request
  left : ∃ nextFree nextChunks, Served heap free chunks request next nextFree nextChunks ∧
    Inv next (⟨start, State.roomFor ⟨heap, live, free⟩ request, 0, false⟩ :: live) nextFree ∧
    Counted next
      (pieces next (⟨start, State.roomFor ⟨heap, live, free⟩ request, 0, false⟩ :: live) nextFree)
      nextChunks

variable {heap next : Heap} {live : List Block} {free : List (FreeBlock Nat)}
  {chunks : List Extent} {request start size answer : Nat}

/-- A block's invariant asks less of a smaller payload. -/
theorem Inv.forget {room : Nat} (inv : Inv heap (⟨start, room, size, false⟩ :: live) free) :
    Inv heap (⟨start, room, 0, false⟩ :: live) free :=
  { inv with
    live := by
      intro block member
      rcases List.mem_cons.mp member with isNew | member
      · subst isNew
        have ok := inv.live _ List.mem_cons_self
        exact {
          nonzero := ok.nonzero
          fits := Nat.zero_le room
          room := ok.room
          sizeLt := Nat.two_pow_pos 64
          sizeWord := nofun
          fromSystem := nofun }
      · exact inv.live block (List.mem_cons_of_mem _ member) }

/-- The first word of a block that remembers no size may be written. -/
theorem Inv.writeWord {room : Nat} (inv : Inv heap (⟨start, room, 0, false⟩ :: live) free)
    (word : sizeofSize ≤ room) (value : Nat) :
    Inv { heap with memory := storePointer heap.memory start value }
      (⟨start, room, 0, false⟩ :: live) free := by
  have outside : ∀ place, place < start ∨ start + room ≤ place →
      storePointer heap.memory start value place = heap.memory place := by
    intro place apart
    unfold sizeofSize at word
    exact storeBytes_outside (by omega)
  have others := List.pairwise_cons.mp inv.live_apart
  apply inv.setMemory
  apply sameWords_of_outside
  · intro block isFree place above below
    apply outside
    have apart := inv.free_apart List.mem_cons_self isFree
    have large := (inv.free block isFree).1
    simp only [Extent.Apart, Apart, Block.whole, freeExtent, sizeofSize] at apart large word
    omega
  · intro block isLive remembered place above below
    apply outside
    rcases List.mem_cons.mp isLive with isNew | isLive
    · subst isNew
      cases remembered
    · have apart := others.1 _ (List.mem_map_of_mem isLive)
      have header := (inv.live block (List.mem_cons_of_mem _ isLive)).header_le remembered
      simp only [Extent.Apart, Apart, Block.whole, sizeofSize] at apart word
      omega

theorem mem_pieces {piece : Extent} :
    piece ∈ pieces heap live free ↔
      piece = heap.tail ∨ piece ∈ live.map Block.whole ∨ piece ∈ free.map freeExtent := by
  unfold pieces
  rw [List.mem_cons, List.mem_append]

/-! ## The sources of a block -/

/-- Carving from a tail that is large enough. -/
theorem carve_serving (inv : Inv heap live free)
    (counted : Counted heap (pieces heap live free) chunks) {esize : Nat} (positive : 0 < esize)
    (room : heap.limit + esize ≤ heap.chunkEnd) (words : esize % 8 = 0) :
    Inv { heap with limit := heap.limit + esize } (⟨heap.limit, esize, 0, false⟩ :: live) free ∧
      Counted { heap with limit := heap.limit + esize }
        (pieces { heap with limit := heap.limit + esize }
          (⟨heap.limit, esize, 0, false⟩ :: live) free) chunks ∧
      usedOf heap chunks < usedOf { heap with limit := heap.limit + esize } chunks := by
  cases chunks with
  | nil =>
      have empty := counted.unused rfl
      omega
  | cons chunk rest =>
      have current := counted.limit chunk rfl
      have wide := counted.wide chunk List.mem_cons_self
      have nonzero : heap.limit ≠ 0 := by
        unfold sizeofHeader at current
        omega
      refine ⟨inv.carve nonzero room words (Nat.zero_le _) (Nat.zero_le _), ?_, ?_⟩
      · apply (counted.advance (List.cons_ne_nil _ _)).mono
        intro part isPart
        rcases mem_pieces.mp isPart with isTail | isLive | isFree
        · refine ⟨heap.tail, List.mem_cons_self, ?_⟩
          subst isTail
          unfold Heap.tail Extent.Inside
          dsimp only
          omega
        · rcases List.mem_cons.mp isLive with isNew | isLive
          · refine ⟨heap.tail, List.mem_cons_self, ?_⟩
            subst isNew
            unfold Block.whole Heap.tail Extent.Inside
            dsimp only
            omega
          · exact ⟨part, mem_pieces.mpr (.inr (.inl isLive)), Nat.le_refl _, Nat.le_refl _⟩
        · exact ⟨part, mem_pieces.mpr (.inr (.inr isFree)), Nat.le_refl _, Nat.le_refl _⟩
      · unfold usedOf
        rw [List.map_cons, List.sum_cons]
        dsimp only
        omega

/-- A new chunk counts as used up to its tail. -/
theorem newChunk_serving (inv : Inv heap live free)
    (counted : Counted heap (pieces heap live free) chunks)
    (answers : Answers heap.reserved allocSize answer)
    (result : newChunk heap answer = some next) :
    Inv next live free ∧ next.limit + maxSize ≤ next.chunkEnd ∧
      Counted next (pieces next live free) (⟨answer, allocSize⟩ :: chunks) ∧
      usedOf heap chunks ≤ usedOf next (⟨answer, allocSize⟩ :: chunks) := by
  obtain ⟨nextInv, limitEq, endEq, _⟩ := inv.newChunk answers result
  have nonzero : answer ≠ 0 := by
    intro isNull
    unfold newChunk at result
    rw [if_pos isNull] at result
    cases result
  have fresh : Fresh heap ⟨answer, allocSize⟩ := .of_answers answers nonzero (by decide)
  have pushed := counted.push fresh (by decide) (by decide) (by
    intro chunk isChunk
    have region := inv.region chunk (counted.reserved chunk isChunk)
    omega)
  unfold newChunk at result
  rw [if_neg nonzero, allocator, if_neg nonzero] at result
  cases result
  have room : sizeofHeader + maxSize ≤ allocSize := by decide
  refine ⟨nextInv, ?_, pushed.mono ?_, ?_⟩
  · dsimp only
    omega
  · intro part isPart
    rcases mem_pieces.mp isPart with isTail | isOther
    · refine ⟨_, List.mem_cons_self, ?_⟩
      subst isTail
      unfold Heap.tail Extent.Inside
      dsimp only
      omega
    · have isPiece : part ∈ pieces heap live free := mem_pieces.mpr (.inr isOther)
      refine ⟨part, List.mem_cons_of_mem _ (List.mem_filter.mpr ⟨isPiece, ?_⟩),
        Nat.le_refl _, Nat.le_refl _⟩
      exact decide_eq_true (inv.fresh_apart fresh isPiece)
  · unfold usedOf
    rw [List.map_cons, List.sum_cons]
    dsimp only
    omega

/-- What `dalloc` does for a request of at least a word. -/
theorem dalloc_serving (inv : Inv heap live free)
    (counted : Counted heap (pieces heap live free) chunks) (word : sizeofSize ≤ request)
    (requestLt : request < 2 ^ 64)
    (answers : Answers heap.reserved (systemSize request) answer)
    (result : dalloc heap request answer = some (start, next)) (nonzero : start ≠ 0) :
    Serving heap live free chunks request start next := by
  unfold dalloc at result
  split at result
  · next large =>
      cases result
      rw [systemSize, if_pos large] at answers
      have reused : State.reused ⟨heap, live, free⟩ request = none := if_pos large
      have roomEq : State.roomFor ⟨heap, live, free⟩ request = request := by
        unfold State.roomFor
        rw [reused]
        exact if_pos large
      have fresh : Fresh heap ⟨start, request⟩ :=
        .of_answers answers nonzero (Nat.zero_lt_of_lt large)
      rw [allocator, if_neg nonzero]
      refine ⟨by rw [roomEq]; exact word, free, chunks, .malloc large rfl, ?_, ?_⟩
      · rw [roomEq]
        exact (inv.mallocBlock fresh large requestLt).forget
      · rw [roomEq]
        apply (counted.reserve fresh.apart).mono
        intro part isPart
        rcases mem_pieces.mp isPart with isTail | isLive | isFree
        · exact ⟨part, List.mem_cons_of_mem _ (mem_pieces.mpr (.inl isTail)),
            Nat.le_refl _, Nat.le_refl _⟩
        · rcases List.mem_cons.mp isLive with isNew | isLive
          · exact ⟨_, List.mem_cons_self, isNew ▸ ⟨Nat.le_refl _, Nat.le_refl _⟩⟩
          · exact ⟨part, List.mem_cons_of_mem _ (mem_pieces.mpr (.inr (.inl isLive))),
              Nat.le_refl _, Nat.le_refl _⟩
        · exact ⟨part, List.mem_cons_of_mem _ (mem_pieces.mpr (.inr (.inr isFree))),
            Nat.le_refl _, Nat.le_refl _⟩
  · next notLarge =>
      have small : request ≤ maxSize := Nat.le_of_not_lt notLarge
      rw [systemSize, if_neg notLarge] at answers
      have reusedEq : State.reused ⟨heap, live, free⟩ request =
          firstOf (classOf request) free := if_neg notLarge
      have wordEsize : sizeofSize ≤ esizeof request := word.trans (le_esizeof request)
      unfold allocE at result
      rw [if_neg (Nat.not_le.mpr (segregate_lt small))] at result
      split at result
      · next nonempty =>
          cases result
          obtain ⟨block, found, isHead⟩ := inv.chained.firstOf_head nonempty
          have isFree := (firstOf_mem found).1
          have roomEq : State.roomFor ⟨heap, live, free⟩ request = block.room := by
            unfold State.roomFor
            rw [reusedEq, classOf, found]
          have reuse := inv.reuse found (Nat.zero_le _) (Nat.zero_le _)
          refine ⟨by rw [roomEq]; exact (inv.free block isFree).1, _, chunks,
            .reused small found rfl, ?_, ?_⟩
          · rw [roomEq, ← isHead]
            rw [← isHead] at reuse
            exact reuse
          · rw [roomEq, ← isHead]
            apply (counted.setTable _).mono
            intro part isPart
            refine ⟨part, ?_, Nat.le_refl _, Nat.le_refl _⟩
            rcases mem_pieces.mp isPart with isTail | isLive | isRest
            · exact mem_pieces.mpr (.inl isTail)
            · rcases List.mem_cons.mp isLive with isNew | isLive
              · exact mem_pieces.mpr (.inr (.inr (isNew ▸ List.mem_map_of_mem isFree)))
              · exact mem_pieces.mpr (.inr (.inl isLive))
            · obtain ⟨other, isOther, rfl⟩ := List.mem_map.mp isRest
              exact mem_pieces.mpr (.inr (.inr (List.mem_map_of_mem
                ((dropFirst_perm found).mem_iff.mpr (List.mem_cons_of_mem _ isOther)))))
      · next empty =>
          have missing : firstOf (classOf request) free = none :=
            (inv.chained.head_eq_zero_iff _).mp (not_not.mp empty)
          have roomEq : State.roomFor ⟨heap, live, free⟩ request = esizeof request := by
            unfold State.roomFor
            rw [reusedEq, missing]
            exact if_neg notLarge
          have positive : 0 < esizeof request := Nat.lt_of_lt_of_le (by decide) wordEsize
          split at result
          · cases chunkResult : newChunk heap answer with
            | none =>
                rw [chunkResult] at result
                cases result
            | some chunk =>
                rw [chunkResult] at result
                cases result
                obtain ⟨chunkInv, room, chunkCounted, more⟩ :=
                  newChunk_serving inv counted answers chunkResult
                have fits := esizeof_le small
                obtain ⟨nextInv, nextCounted, used⟩ := carve_serving chunkInv chunkCounted
                  positive (by omega) (esizeof_mod request)
                refine ⟨by rw [roomEq]; exact wordEsize, free, _,
                  .carved small missing (Nat.lt_of_le_of_lt more used), ?_, ?_⟩
                · rw [roomEq]
                  exact nextInv
                · rw [roomEq]
                  exact nextCounted
          · next room =>
              cases result
              obtain ⟨nextInv, nextCounted, used⟩ := carve_serving inv counted positive
                (by omega) (esizeof_mod request)
              refine ⟨by rw [roomEq]; exact wordEsize, free, chunks,
                .carved small missing used, ?_, ?_⟩
              · rw [roomEq]
                exact nextInv
              · rw [roomEq]
                exact nextCounted

/-- The size is written into the first word of the block. -/
theorem Serving.remember (serving : Serving heap live free chunks request start next)
    (value : Nat) :
    Serving heap live free chunks request start
      { next with memory := storePointer next.memory start value } := by
  obtain ⟨word, nextFree, nextChunks, served, inv, counted⟩ := serving
  refine ⟨word, nextFree, nextChunks, ?_, inv.writeWord word value, ?_⟩
  · cases served with
    | malloc large same => exact .malloc large same
    | reused small found same => exact .reused small found same
    | carved small missing more => exact .carved small missing more
  · exact counted.write (mem_pieces.mpr (.inr (.inl List.mem_cons_self)))
      ⟨Nat.le_refl _, Nat.add_le_add_left word _⟩ value

theorem dsalloc_serving {p : Nat} (inv : Inv heap live free)
    (counted : Counted heap (pieces heap live free) chunks)
    (sizeLt : size + sizeofSize < 2 ^ 64)
    (answers : Answers heap.reserved (systemSize (size + sizeofSize)) answer)
    (result : dsalloc heap size answer = some (p, next)) :
    Serving heap live free chunks (size + sizeofSize) (p - sizeofSize) next := by
  unfold dsalloc at result
  rw [Nat.mod_eq_of_lt sizeLt] at result
  cases inner : dalloc heap (size + sizeofSize) answer with
  | none =>
      rw [inner] at result
      cases result
  | some pair =>
      obtain ⟨start, middle⟩ := pair
      rw [inner] at result
      simp only [Option.bind_eq_bind, Option.bind_some] at result
      split at result
      · cases result
      · next nonzero =>
          cases result
          rw [Nat.add_sub_cancel]
          exact (dalloc_serving inv counted (Nat.le_add_left _ _) sizeLt answers inner
            nonzero).remember size

end MallocSurvey.DumbTlsf
