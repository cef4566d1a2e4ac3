import MallocSurvey.DumbTlsf.Served

/-! # Rounds of dumb_tlsf

A list of sizes is allocated with `dsalloc`, everything is freed, and the same list is
allocated again. A block was carved for its size and the word that remembers it, but
goes to the list of the size alone. -/

namespace MallocSurvey.DumbTlsf

open Library

/-- Calls of `dsalloc`, each a size and what the system allocator answers if it is asked. -/
def allocations (calls : List (Nat × Nat)) : List Event :=
  calls.map fun call => .dsalloc call.1 call.2

def frees (blocks : List Block) : List Event := blocks.map .free

def sizesOf (calls : List (Nat × Nat)) : List Nat := calls.map Prod.fst

/-- The start of a program, with or without a call of `dreserve`. -/
def Started (state : State) : Prop :=
  (∃ memory, state = ⟨Heap.initial memory, [], []⟩) ∨
    ∃ memory size answer heap, sizeofHeader ≤ size ∧ size < 2 ^ 64 ∧ answer ≠ 0 ∧
      Answers [] size answer ∧ dreserve (Heap.initial memory) size answer = some heap ∧
      state = ⟨heap, [], []⟩

/-- `dused_memory` returns the number. -/
def UsedMemory (heap : Heap) (used : Nat) : Prop := ∃ fuel, dusedMemory fuel heap = some used

def anyCall : State → Event → Prop := fun _ _ => True

/-- The requests of a list of sizes that look at a list of blocks. -/
def requested (sizes : List Nat) (index : Nat) : Nat :=
  sizes.countP fun size =>
    decide (size + sizeofSize ≤ maxSize) && decide (classOf (size + sizeofSize) = index)

/-- The blocks of a list of sizes that freeing puts on a list. -/
def returned (sizes : List Nat) (index : Nat) : Nat :=
  sizes.countP fun size => decide (size ≤ maxSize) && decide (classOf size = index)

/-- Every list gets at least as many blocks as are requested from it. -/
def Balanced (sizes : List Nat) : Prop :=
  ∀ index, requested sizes index ≤ returned sizes index

/-! ## The invariants of a round -/

structure Good (state : State) (chunks : List Extent) : Prop where
  inv : state.Inv
  counted : Counted state.heap (pieces state.heap state.live state.free) chunks

theorem started_good {state : State} (started : Started state) :
    state.live = [] ∧ state.free = [] ∧ ∃ chunks, Good state chunks := by
  rcases started with ⟨memory, rfl⟩ |
    ⟨memory, size, answer, heap, wide, sizeLt, nonzero, answers, result, rfl⟩
  · exact ⟨rfl, rfl, [], inv_initial memory, counted_initial memory _⟩
  · refine ⟨rfl, rfl, [⟨answer, size⟩], ?_⟩
    have fresh : Fresh (Heap.initial memory) ⟨answer, size⟩ :=
      .of_answers answers nonzero (Nat.lt_of_lt_of_le (by decide) wide)
    unfold dreserve at result
    rw [if_neg (fun limit => limit rfl), if_neg nonzero, allocator, if_neg nonzero] at result
    cases result
    have pushed := (counted_initial memory []).push fresh wide sizeLt
      fun _ member => absurd member List.not_mem_nil
    constructor
    · exact {
        chained := ⟨fun _ => rfl, fun _ => trivial⟩
        regionsApart := List.pairwise_singleton _ _
        region := by
          intro region member
          rw [List.mem_singleton.mp member]
          exact ⟨fresh.nonzero, fresh.nonempty, fresh.bound⟩
        apart := List.pairwise_singleton _ _
        inside := by
          intro piece member _
          refine ⟨_, List.mem_singleton_self _, ?_⟩
          rw [List.mem_singleton.mp member]
          unfold Heap.tail Extent.Inside
          dsimp only
          omega
        tail := Nat.add_le_add_left wide answer
        live := fun _ member => absurd member List.not_mem_nil
        free := fun _ member => absurd member List.not_mem_nil }
    · apply pushed.mono
      intro part isPart
      refine ⟨_, List.mem_cons_self, ?_⟩
      rw [List.mem_singleton.mp isPart]
      unfold Heap.tail Extent.Inside
      dsimp only
      omega

theorem Good.usedMemory {state : State} {chunks : List Extent} (good : Good state chunks) :
    UsedMemory state.heap (usedOf state.heap chunks) :=
  ⟨_, good.counted.dusedMemory_eq good.inv.tail good.inv.region⟩

/-- A call of `dsalloc` on an empty list of freed blocks. -/
theorem Good.allocate {state next : State} {chunks : List Extent} (good : Good state chunks)
    (noFree : state.free = []) {size answer : Nat} (sizeLt : size + sizeofSize < 2 ^ 64)
    (enabled : Enabled state (.dsalloc size answer))
    (result : step state (.dsalloc size answer) = some next) :
    next.free = [] ∧
      (∃ start room, next.live = ⟨start, room, size, true⟩ :: state.live) ∧
      ∃ nextChunks, Good next nextChunks := by
  have reused : state.reused (size + sizeofSize) = none := by
    unfold State.reused
    rw [noFree]
    split <;> rfl
  have nextInv := inv_step good.inv enabled
    ⟨sizeLt, fun block found => by rw [reused] at found; cases found⟩ result
  have answers := enabled.2
  rw [Nat.mod_eq_of_lt sizeLt] at answers
  cases call : dsalloc state.heap size answer with
  | none => simp [step, call] at result
  | some pair =>
      obtain ⟨p, heap⟩ := pair
      simp only [step, call, Option.bind_eq_bind, Option.bind_some] at result
      cases result
      obtain ⟨_, nextFree, nextChunks, served, _, counted⟩ :=
        dsalloc_serving good.inv good.counted sizeLt answers call
      rw [Nat.mod_eq_of_lt sizeLt] at nextInv ⊢
      have sameFree : nextFree = state.free := by
        cases served with
        | malloc => rfl
        | carved => rfl
        | reused _ found =>
            rw [noFree] at found
            cases found
      subst sameFree
      unfold State.allocated at nextInv ⊢
      rw [reused] at nextInv ⊢
      exact ⟨noFree, ⟨_, _, rfl⟩, nextChunks, nextInv, counted⟩

/-- The first round leaves a block in use for every size. -/
theorem allocations_good {calls : List (Nat × Nat)} {state next : State}
    {chunks : List Extent} (good : Good state chunks) (noFree : state.free = [])
    (sizeLt : ∀ size ∈ sizesOf calls, size + sizeofSize < 2 ^ 64)
    (runs : machine.Runs anyCall state (allocations calls) next) :
    next.free = [] ∧
      (next.live.map Block.size).Perm (sizesOf calls ++ state.live.map Block.size) ∧
      (∀ block ∈ next.live, block ∈ state.live ∨ block.remembered = true) ∧
      ∃ nextChunks, Good next nextChunks := by
  induction calls generalizing state chunks with
  | nil =>
      cases runs
      exact ⟨noFree, .refl _, fun block isLive => .inl isLive, chunks, good⟩
  | cons call rest induction =>
      obtain ⟨size, answer⟩ := call
      cases runs with
      | cons enabled _ result runs =>
          obtain ⟨middleFree, ⟨start, room, middleLive⟩, middleChunks, middleGood⟩ :=
            good.allocate noFree (sizeLt size List.mem_cons_self) enabled result
          obtain ⟨nextFree, sizes, remembered, nextGood⟩ :=
            induction middleGood middleFree
              (fun other member => sizeLt other (List.mem_cons_of_mem _ member)) runs
          rw [middleLive] at sizes remembered
          refine ⟨nextFree, sizes.trans List.perm_middle, ?_, nextGood⟩
          intro block isLive
          rcases remembered block isLive with isOld | isNew
          · rcases List.mem_cons.mp isOld with isFirst | isOld
            · exact .inr (isFirst ▸ rfl)
            · exact .inl isOld
          · exact .inr isNew

/-! ## Freeing -/

/-- Freeing writes to the block and nowhere else. -/
theorem Good.free {state next : State} {chunks : List Extent} (good : Good state chunks)
    {block : Block} (isLive : block ∈ state.live) (remembered : block.remembered = true)
    (result : step state (.free block) = some next) : Good next chunks := by
  have ok := good.inv.live block isLive
  have word : sizeofSize ≤ block.room := ok.header_le remembered
  have enabled : Enabled state (.free block) := isLive
  have nextInv := inv_step good.inv enabled (fun _ => word) result
  refine ⟨nextInv, ?_⟩
  have isPiece : block.whole ∈ pieces state.heap state.live state.free :=
    mem_pieces.mpr (.inr (.inl (List.mem_map_of_mem isLive)))
  have kept : ∀ part, part = state.heap.tail ∨
      part ∈ (state.live.erase block).map Block.whole ∨
      part ∈ state.free.map freeExtent → ∃ piece ∈ pieces state.heap state.live state.free,
        part.Inside piece := by
    intro part isPart
    refine ⟨part, ?_, Nat.le_refl _, Nat.le_refl _⟩
    rcases isPart with isTail | isRest | isFree
    · exact mem_pieces.mpr (.inl isTail)
    · obtain ⟨other, isOther, rfl⟩ := List.mem_map.mp isRest
      exact mem_pieces.mpr (.inr (.inl (List.mem_map_of_mem (List.mem_of_mem_erase isOther))))
    · exact mem_pieces.mpr (.inr (.inr isFree))
  cases call : dfree state.heap block.start block.size with
  | none => simp [step, free_call good.inv isLive, call] at result
  | some heap =>
      simp only [step, free_call good.inv isLive, call, Option.bind_eq_bind,
        Option.bind_some] at result
      cases result
      unfold State.freed
      unfold dfree at call
      split at call
      · next large =>
          rw [if_pos large]
          unfold deallocator at call
          rw [if_neg ok.nonzero] at call
          split at call
          · cases call
            have counted := good.counted
            have dropped : Counted
                { state.heap with reserved :=
                    state.heap.reserved.eraseP fun region => region.start = block.start }
                (pieces state.heap state.live state.free) chunks :=
              { counted with
                reserved := by
                  intro chunk isChunk
                  -- the header of a chunk is apart from the block
                  have between := counted.apart chunk isChunk _ isPiece
                  have different : chunk.start ≠ block.start := by
                    intro same
                    unfold Extent.Apart Library.Apart Block.whole sizeofHeader at between
                    unfold sizeofSize at word
                    dsimp only at between
                    omega
                  apply (List.mem_eraseP_of_neg _).mpr (counted.reserved chunk isChunk)
                  exact fun same => different (of_decide_eq_true same) }
            apply dropped.mono
            intro part isPart
            exact kept part (mem_pieces.mp isPart)
          · cases call
      · next small =>
          rw [if_neg small]
          unfold freeE at call
          split at call
          · cases call
          · cases call
            have written := (good.counted.write isPiece
              ⟨Nat.le_refl _, Nat.add_le_add_left word _⟩
              (state.heap.table (segregate (esizeof block.size)))).setTable
              (Function.update state.heap.table (segregate (esizeof block.size)) block.start)
            apply written.mono
            intro part isPart
            rcases mem_pieces.mp isPart with isTail | isRest | isFree
            · exact kept part (.inl isTail)
            · exact kept part (.inr (.inl isRest))
            · rcases List.mem_cons.mp isFree with isNew | isFree
              · exact ⟨block.whole, isPiece, isNew ▸ ⟨Nat.le_refl _, Nat.le_refl _⟩⟩
              · exact kept part (.inr (.inr isFree))

/-- The blocks freed with the sizes on a list. -/
def freedOn (free : List (FreeBlock Nat)) (index : Nat) : Nat :=
  free.countP fun block => block.bin = index

theorem returned_cons (size : Nat) (sizes : List Nat) (index : Nat) :
    returned (size :: sizes) index =
      returned sizes index + if size ≤ maxSize ∧ classOf size = index then 1 else 0 := by
  unfold returned
  rw [List.countP_cons]
  simp only [Bool.and_eq_true, decide_eq_true_eq]

theorem frees_good {order : List Block} {state next : State} {chunks : List Extent}
    (good : Good state chunks) (remembered : ∀ block ∈ state.live, block.remembered = true)
    (runs : machine.Runs anyCall state (frees order) next) :
    Good next chunks ∧ next.heap.chunkEnd = state.heap.chunkEnd ∧
      next.heap.limit = state.heap.limit ∧
      ∀ index, freedOn next.free index =
        freedOn state.free index + returned (order.map Block.size) index := by
  induction order generalizing state with
  | nil =>
      cases runs
      exact ⟨good, rfl, rfl, fun _ => rfl⟩
  | cons block rest induction =>
      cases runs with
      | @cons _ middle _ _ _ enabled _ result runs =>
          have middleGood := good.free enabled (remembered block enabled) result
          have effect : middle.live = state.live.erase block ∧
              middle.heap.chunkEnd = state.heap.chunkEnd ∧
              middle.heap.limit = state.heap.limit ∧
              middle.free = if block.size > maxSize then state.free
                else ⟨segregate (esizeof block.size), block.start, block.room⟩ ::
                  state.free := by
            cases call : dfree state.heap block.start block.size with
            | none => simp [machine, step, free_call good.inv enabled, call] at result
            | some heap =>
                simp only [machine, step, free_call good.inv enabled, call,
                  Option.bind_eq_bind, Option.bind_some] at result
                cases result
                have same : heap.chunkEnd = state.heap.chunkEnd ∧
                    heap.limit = state.heap.limit := by
                  unfold dfree deallocator freeE at call
                  split at call
                  · split at call
                    · cases call
                      exact ⟨rfl, rfl⟩
                    · split at call
                      · cases call
                        exact ⟨rfl, rfl⟩
                      · cases call
                  · split at call
                    · cases call
                    · cases call
                      exact ⟨rfl, rfl⟩
                exact ⟨rfl, same.1, same.2, rfl⟩
          obtain ⟨liveEq, endEq, limitEq, freeEq⟩ := effect
          obtain ⟨nextGood, nextEnd, nextLimit, counts⟩ := induction middleGood (by
            intro other isLive
            rw [liveEq] at isLive
            exact remembered other (List.mem_of_mem_erase isLive)) runs
          refine ⟨nextGood, nextEnd.trans endEq, nextLimit.trans limitEq, ?_⟩
          intro index
          rw [counts index, freeEq, List.map_cons, returned_cons]
          unfold freedOn classOf
          by_cases large : block.size > maxSize
          · rw [if_pos large, if_neg (fun both => absurd both.1 (Nat.not_le_of_lt large))]
            rfl
          · have small : block.size ≤ maxSize := Nat.le_of_not_lt large
            rw [if_neg large, List.countP_cons]
            simp only [small, true_and, decide_eq_true_eq]
            omega

/-- Every block in use can be freed. -/
theorem frees_run {order : List Block} {state : State} {chunks : List Extent}
    (good : Good state chunks) (remembered : ∀ block ∈ state.live, block.remembered = true)
    (perm : order.Perm state.live) :
    ∃ next, machine.Runs anyCall state (frees order) next := by
  induction order generalizing state with
  | nil => exact ⟨state, .nil⟩
  | cons block rest induction =>
      have isLive : block ∈ state.live := perm.mem_iff.mp List.mem_cons_self
      have ok := good.inv.live block isLive
      have freed : ∃ heap, dfree state.heap block.start block.size = some heap := by
        unfold dfree
        split
        · next large =>
            unfold deallocator
            rw [if_neg ok.nonzero, if_pos]
            · exact ⟨_, rfl⟩
            · rw [List.any_eq_true]
              exact ⟨block.whole, ok.fromSystem large, decide_eq_true rfl⟩
        · next small =>
            unfold freeE
            rw [if_neg]
            · exact ⟨_, rfl⟩
            · rw [not_or]
              exact ⟨Nat.not_le.mpr (segregate_lt (Nat.le_of_not_lt small)), ok.nonzero⟩
      obtain ⟨heap, call⟩ := freed
      have result : step state (.free block) = some (state.freed heap block) := by
        simp only [step, free_call good.inv isLive, call, Option.bind_eq_bind,
          Option.bind_some, pure]
      have restPerm : rest.Perm (state.freed heap block).live :=
        List.cons_perm_iff_perm_erase.mp perm |>.2
      obtain ⟨next, runs⟩ := induction (good.free isLive (remembered block isLive) result)
        (fun other member => remembered other (List.mem_of_mem_erase member)) restPerm
      exact ⟨next, .cons (show machine.Enabled state (.free block) from isLive) trivial result
        runs⟩

end MallocSurvey.DumbTlsf
