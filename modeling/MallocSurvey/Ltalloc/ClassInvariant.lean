import Mathlib.Data.Fintype.BigOperators
import MallocSurvey.Library.Ledger
import MallocSurvey.Ltalloc.CacheSteps
import MallocSurvey.Ltalloc.System

/-! # The invariant of a size class

The blocks of the chunks of a class are with the callers, in the caches of the
threads, in the central cache or detached from it by a squeeze. -/

namespace MallocSurvey.Ltalloc

open Library

variable {threads : Nat}

/-- The cache of a thread, which may be waiting for a chunk of the class. -/
def CacheInv (sizeClass : Nat) (fetching : Bool) (tc : ThreadCache) : Prop :=
  if fetching then tc = .fetching else CounterLaw sizeClass tc

namespace ClassState

/-- The blocks in the caches of the threads. -/
def cached (cs : ClassState threads) : Multiset Nat :=
  ∑ thread, (cs.caches thread).stock

/-- The blocks of the chunks. -/
def blocks (cs : ClassState threads) (sizeClass : Nat) : Multiset Nat :=
  (cs.chunks.flatMap (chunkBlocks sizeClass) : Multiset Nat)

end ClassState

structure ClassInv (sizeClass : Nat) (cs : ClassState threads) (lastWord : Nat → Nat)
    (fetching : Fin threads → Bool) (detached : Multiset Nat) (tails : List Nat) :
    Prop where
  caches : ∀ thread, CacheInv sizeClass (fetching thread) (cs.caches thread)
  central : CentralInv sizeClass cs.central cs.chunks lastWord tails
  nodup : cs.chunks.Nodup
  ledger : cs.live + cs.cached + cs.central.stock sizeClass tails + detached =
    cs.blocks sizeClass

theorem classInv_initial (sizeClass : Nat) (lastWord : Nat → Nat) :
    ClassInv sizeClass (.initial threads) lastWord (fun _ => false) 0 [] where
  caches _ := .inl rfl
  central := {
    batches_full := fun batch member => by
      cases small : chunkIsSmall sizeClass <;>
        simp [CentralCache.batches, ClassState.initial, CentralCache.initial, small] at member
    store := fun _ => ⟨(fun _ member => nomatch member), (fun _ member => nomatch member),
      (fun _ member => nomatch member), rfl, fun _ => rfl⟩
    freeListSize := rfl
    aligned := fun _ member => nomatch member
    bounds := fun _ member => nomatch member
    minChunkAddr := ⟨fun absurd => absurd.elim rfl, rfl⟩
    tails := ⟨.nil, .inl ⟨rfl, rfl⟩, (fun _ member => nomatch member), List.nodup_nil,
      fun absurd => absurd.elim rfl⟩ }
  nodup := List.nodup_nil
  ledger := by
    cases small : chunkIsSmall sizeClass <;>
      simp [ClassState.initial, ClassState.cached, ClassState.blocks, CentralCache.stock,
        CentralCache.batches, CentralCache.initial, ThreadCache.initial, ThreadCache.stock,
        small]

section Class

variable {sizeClass : Nat} {cs : ClassState threads} {lastWord : Nat → Nat}
  {fetching : Fin threads → Bool} {detached : Multiset Nat} {tails : List Nat}
  {thread : Fin threads}

theorem cached_update (caches : Fin threads → ThreadCache) (thread : Fin threads)
    (tc : ThreadCache) :
    (∑ other, (Function.update caches thread tc other).stock) + (caches thread).stock =
      (∑ other, (caches other).stock) + tc.stock :=
  total_update caches (fun _ cache => cache.stock) (Finset.mem_univ thread) tc

namespace ClassInv

theorem blocks_nodup (inv : ClassInv sizeClass cs lastWord fetching detached tails)
    (geometry : Geometry sizeClass) :
    (cs.live + cs.cached + cs.central.stock sizeClass tails + detached).Nodup := by
  rw [inv.ledger, ClassState.blocks, Multiset.coe_nodup]
  exact flatMap_nodup_of_owner (fun block => block / chunkSize * chunkSize) inv.nodup
    (fun chunk _ => chunkBlocks_nodup geometry chunk)
    fun chunk member _ isBlock =>
      (chunk_of_mem_chunkBlocks geometry (inv.central.aligned chunk member).1 isBlock).1

/-- The chunk of a block of the class. -/
theorem chunk_of_mem (inv : ClassInv sizeClass cs lastWord fetching detached tails)
    (geometry : Geometry sizeClass) {block : Nat}
    (member : block ∈ cs.live + cs.cached + cs.central.stock sizeClass tails + detached) :
    block / chunkSize * chunkSize ∈ cs.chunks ∧ block % chunkSize ≠ 0 ∧
      block ∈ chunkBlocks sizeClass (block / chunkSize * chunkSize) := by
  rw [inv.ledger, ClassState.blocks, Multiset.mem_coe, List.mem_flatMap] at member
  obtain ⟨chunk, isChunk, isBlock⟩ := member
  obtain ⟨chunkEq, inside⟩ :=
    chunk_of_mem_chunkBlocks geometry (inv.central.aligned chunk isChunk).1 isBlock
  rw [chunkEq]
  exact ⟨isChunk, inside, isBlock⟩

theorem law (inv : ClassInv sizeClass cs lastWord fetching detached tails)
    (notFetching : fetching thread = false) :
    CounterLaw sizeClass (cs.caches thread) := by
  have cache := inv.caches thread
  rw [CacheInv, notFetching] at cache
  exact cache

theorem caches_update {newFetching : Fin threads → Bool} {tc : ThreadCache}
    (inv : ClassInv sizeClass cs lastWord fetching detached tails)
    (own : CacheInv sizeClass (newFetching thread) tc)
    (others : ∀ other, other ≠ thread → newFetching other = fetching other) :
    ∀ other, CacheInv sizeClass (newFetching other)
      (Function.update cs.caches thread tc other) := by
  intro other
  by_cases same : other = thread
  · subst same
    rw [Function.update_self]
    exact own
  · rw [Function.update_of_ne same, others other same]
    exact inv.caches other

/-- Moving blocks between a cache, the central cache and the callers. -/
theorem moved {tc : ThreadCache} {cc : CentralCache} {live : Multiset Nat}
    {newFetching : Fin threads → Bool} {newTails : List Nat}
    (inv : ClassInv sizeClass cs lastWord fetching detached tails)
    (own : CacheInv sizeClass (newFetching thread) tc)
    (others : ∀ other, other ≠ thread → newFetching other = fetching other)
    (central : CentralInv sizeClass cc cs.chunks lastWord newTails)
    (conserved : live + tc.stock + cc.stock sizeClass newTails =
      cs.live + (cs.caches thread).stock + cs.central.stock sizeClass tails) :
    ClassInv sizeClass { cs with
      caches := Function.update cs.caches thread tc
      central := cc
      live } lastWord newFetching detached newTails where
  caches := inv.caches_update own others
  central := central
  nodup := inv.nodup
  ledger := by
    have updated := cached_update cs.caches thread tc
    have ledger := inv.ledger
    simp only [ClassState.cached, ClassState.blocks] at updated ledger ⊢
    rw [← ledger]
    apply add_right_cancel (b := (cs.caches thread).stock)
    calc live + (∑ other, (Function.update cs.caches thread tc other).stock) +
          cc.stock sizeClass newTails + detached + (cs.caches thread).stock
        = live + ((∑ other, (Function.update cs.caches thread tc other).stock) +
            (cs.caches thread).stock) + cc.stock sizeClass newTails + detached := by abel
      _ = (live + tc.stock + cc.stock sizeClass newTails) +
            (∑ other, (cs.caches other).stock) + detached := by
          rw [updated]
          abel
      _ = _ := by
          rw [conserved]
          abel

/-- What `ltmalloc` does on the class. -/
theorem malloc (geometry : Geometry sizeClass)
    (inv : ClassInv sizeClass cs lastWord fetching detached tails)
    (notFetching : fetching thread = false)
    (serves : TakesFreeList sizeClass (cs.caches thread) cs.central →
      FreeListServes sizeClass cs.central) :
    (∃ block tc cc newTails, ltmalloc sizeClass (cs.caches thread) cs.central lastWord =
        some (.block block tc cc) ∧ block ∉ cs.live ∧
      ClassInv sizeClass { cs with
        caches := Function.update cs.caches thread tc
        central := cc
        live := block ::ₘ cs.live } lastWord fetching detached newTails) ∨
    ltmalloc sizeClass (cs.caches thread) cs.central lastWord =
        some (.needChunk .fetching) ∧
      ClassInv sizeClass { cs with
        caches := Function.update cs.caches thread .fetching } lastWord
        (Function.update fetching thread true) detached tails := by
  have spec := ltmalloc_spec geometry inv.central (inv.law notFetching) serves
  generalize ltmalloc sizeClass (cs.caches thread) cs.central lastWord = outcome at spec
  cases spec with
  | @block block tc cc newTails handed =>
      have stock := handed.stock
      refine .inl ⟨block, tc, cc, newTails, rfl, ?_, ?_⟩
      · intro isLive
        have inStock : block ∈ (cs.caches thread).stock +
            cs.central.stock sizeClass tails := by
          rw [← stock]
          exact Multiset.mem_add.mpr (.inl (Multiset.mem_add.mpr
            (.inl (Multiset.mem_singleton_self block))))
        have nodup := inv.blocks_nodup geometry
        have cacheLe : (cs.caches thread).stock ≤ cs.cached :=
          share_le_total (fun other => (cs.caches other).stock) (Finset.mem_univ thread)
        have le : cs.live + ((cs.caches thread).stock +
            cs.central.stock sizeClass tails) ≤
            cs.live + cs.cached + cs.central.stock sizeClass tails + detached := by
          rw [← add_assoc]
          exact le_add_of_le_of_nonneg (add_le_add_left (add_le_add_right cacheLe _) _)
            (Multiset.zero_le _)
        exact Multiset.disjoint_left.mp
          (Multiset.nodup_add.mp (Multiset.nodup_of_le le nodup)).2.2 isLive inStock
      · refine inv.moved ?_ (fun _ _ => rfl) handed.inv ?_
        · rw [CacheInv, notFetching]
          exact handed.law
        · rw [← Multiset.singleton_add, add_assoc cs.live, ← stock]
          abel
  | needChunk empty noTemp =>
      refine .inr ⟨rfl, ?_⟩
      refine inv.moved ?_ ?_ inv.central ?_
      · rw [CacheInv, Function.update_self, if_pos rfl]
      · exact fun other different => Function.update_of_ne different _ _
      · rw [ThreadCache.stock, ThreadCache.stock, empty, noTemp]
        rfl

theorem insertChunk {chunk : Nat} (geometry : Geometry sizeClass)
    (inv : ClassInv sizeClass cs lastWord fetching detached tails)
    (isFetching : fetching thread = true) (aligned : chunk % chunkSize = 0)
    (nonzero : chunk ≠ 0) (fresh : chunk ∉ cs.chunks)
    (zeroFilled : lastWord (chunk + chunkSize) = 0) :
    ∃ block tc cc hooked newTails,
      Ltalloc.insertChunk sizeClass chunk (cs.caches thread) cs.central lastWord =
        some (.block block tc cc, hooked) ∧ block ∉ cs.live ∧
      (∀ address, address ≠ chunk + chunkSize → hooked address = lastWord address) ∧
      ClassInv sizeClass { cs with
        caches := Function.update cs.caches thread tc
        central := cc
        live := block ::ₘ cs.live
        chunks := chunk :: cs.chunks } hooked
        (Function.update fetching thread false) detached newTails := by
  have cache := inv.caches thread
  rw [CacheInv, if_pos isFetching] at cache
  obtain ⟨block, tc, cc, hooked, newTails, result, frame, inserted⟩ :=
    insertChunk_spec geometry inv.central aligned nonzero fresh zeroFilled
  have stock := inserted.stock
  have updated := cached_update cs.caches thread tc
  have ledger := inv.ledger
  have noStock : (cs.caches thread).stock = 0 := by rw [cache]; rfl
  have newInv : ClassInv sizeClass { cs with
        caches := Function.update cs.caches thread tc
        central := cc
        live := block ::ₘ cs.live
        chunks := chunk :: cs.chunks } hooked
        (Function.update fetching thread false) detached newTails := by
    refine ⟨inv.caches_update ?_ ?_, inserted.inv, List.nodup_cons.mpr ⟨fresh, inv.nodup⟩,
      ?_⟩
    · rw [CacheInv, Function.update_self]
      exact inserted.law
    · exact fun other different => Function.update_of_ne different _ _
    · simp only [ClassState.cached, ClassState.blocks, List.flatMap_cons,
        ← Multiset.coe_add] at updated ledger ⊢
      rw [noStock, add_zero] at updated
      rw [updated, ← ledger]
      calc block ::ₘ cs.live + ((∑ other, (cs.caches other).stock) + tc.stock) +
            cc.stock sizeClass newTails + detached
          = ({block} + tc.stock + cc.stock sizeClass newTails) + cs.live +
              (∑ other, (cs.caches other).stock) + detached := by
            rw [← Multiset.singleton_add]
            abel
        _ = _ := by
            rw [stock]
            abel
  refine ⟨block, tc, cc, hooked, newTails, by rw [cache]; exact result, ?_, frame, newInv⟩
  have nodup := newInv.blocks_nodup geometry
  have liveNodup := Multiset.nodup_of_le (Multiset.le_add_right _ _) (Multiset.nodup_of_le
    (Multiset.le_add_right _ _) (Multiset.nodup_of_le (Multiset.le_add_right _ _) nodup))
  exact (Multiset.nodup_cons.mp liveNodup).1

/-- A full batch in a cache leaves room for it in the central cache. -/
theorem hasRoom (inv : ClassInv sizeClass cs lastWord fetching detached tails)
    (full : (cs.caches thread).tempList.length = batchSize sizeClass + 1) :
    HasRoom sizeClass cs.central cs.chunks := by
  intro _
  have cacheLe : (cs.caches thread).stock ≤ cs.cached :=
    share_le_total (fun other => (cs.caches other).stock) (Finset.mem_univ thread)
  have cacheCard := Multiset.card_le_card cacheLe
  have ledgerCard := congrArg Multiset.card inv.ledger
  have stored : ((cs.central.batches sizeClass).flatten).length =
      (cs.central.batches sizeClass).length * (batchSize sizeClass + 1) := by
    rw [List.length_flatten, List.eq_replicate_of_mem (l :=
      (cs.central.batches sizeClass).map List.length) (a := batchSize sizeClass + 1)
      (fun length member => by
        obtain ⟨batch, isBatch, rfl⟩ := List.mem_map.mp member
        exact inv.central.batches_full batch isBatch)]
    simp
  have total : (cs.chunks.flatMap (chunkBlocks sizeClass)).length =
      numBlocksInChunk sizeClass * cs.chunks.length := by
    rw [List.length_flatMap, List.eq_replicate_of_mem (l :=
      cs.chunks.map fun chunk => (chunkBlocks sizeClass chunk).length)
      (a := numBlocksInChunk sizeClass) (fun length member => by
        obtain ⟨chunk, _, rfl⟩ := List.mem_map.mp member
        rw [chunkBlocks, run_length])]
    simp [Nat.mul_comm]
  simp only [ThreadCache.stock, CentralCache.stock, ClassState.blocks, Multiset.card_add,
    Multiset.coe_card, stored, total, full] at cacheCard ledgerCard
  rw [Nat.add_mul, Nat.one_mul]
  omega

theorem roomForTemp (inv : ClassInv sizeClass cs lastWord fetching detached tails)
    (notFetching : fetching thread = false) :
    (cs.caches thread).tempList ≠ [] → HasRoom sizeClass cs.central cs.chunks :=
  fun nonempty => inv.hasRoom ((inv.law notFetching).temp.resolve_left nonempty)

/-- What `ltfree` does on the class of a live block. -/
theorem free (geometry : Geometry sizeClass)
    (inv : ClassInv sizeClass cs lastWord fetching detached tails)
    (notFetching : fetching thread = false) {block : Nat} (isLive : block ∈ cs.live) :
    ∃ tc cc, ltfree sizeClass block (cs.caches thread) cs.central = some (tc, cc) ∧
      ClassInv sizeClass { cs with
        caches := Function.update cs.caches thread tc
        central := cc
        live := cs.live.erase block } lastWord fetching detached tails := by
  obtain ⟨tc, cc, result, law, central, stock⟩ := ltfree_spec geometry
    inv.central (inv.law notFetching) (inv.roomForTemp notFetching)
  refine ⟨tc, cc, result, inv.moved ?_ (fun _ _ => rfl) central ?_⟩
  · rw [CacheInv, notFetching]
    exact law
  · rw [add_assoc, stock, ← add_assoc, Multiset.add_comm _ {block},
      Multiset.singleton_add, Multiset.cons_erase isLive]
    abel

/-- What `release_thread_cache` does on the class. -/
theorem release (geometry : Geometry sizeClass)
    (inv : ClassInv sizeClass cs lastWord fetching detached tails)
    (notFetching : fetching thread = false) :
    ∃ cc, releaseThreadCache sizeClass (cs.caches thread) cs.central = some cc ∧
      ClassInv sizeClass { cs with
        caches := Function.update cs.caches thread .initial
        central := cc } lastWord fetching detached tails := by
  obtain ⟨cc, result, central, stock⟩ := releaseThreadCache_spec geometry inv.central
    (inv.law notFetching) (inv.roomForTemp notFetching)
  refine ⟨cc, result, inv.moved ?_ (fun _ _ => rfl) central ?_⟩
  · rw [CacheInv, notFetching]
    exact .inl rfl
  · rw [stock, ThreadCache.initial, ThreadCache.stock]
    simp only [Multiset.coe_nil, add_zero, add_assoc]

/-- Only the last words of the chunks of the class matter. -/
theorem congr {newLastWord : Nat → Nat}
    (inv : ClassInv sizeClass cs lastWord fetching detached tails)
    (geometry : Geometry sizeClass)
    (same : ∀ chunk ∈ cs.chunks, newLastWord (chunk + chunkSize) =
      lastWord (chunk + chunkSize)) :
    ClassInv sizeClass cs newLastWord fetching detached tails :=
  { inv with
    central := { inv.central with
      tails := { inv.central.tails with
        chain := inv.central.tails.chain.congr fun tail member => by
          obtain ⟨chunk, isChunk, count, positive, inChunk, isTail⟩ :=
            inv.central.tails.position tail member
          rw [isTail, regionEnd_tailStart geometry (inv.central.aligned chunk isChunk).1
            inChunk.le positive]
          exact same chunk isChunk } } }

/-- The first locked section of `ltsqueeze`. -/
theorem detach (inv : ClassInv sizeClass cs lastWord fetching detached tails)
    (large : chunkIsSmall sizeClass = false) :
    ClassInv sizeClass { cs with
      central := { cs.central with firstBatch := [], freeList := [], freeListSize := 0 } }
      lastWord fetching
      (detached + ((cs.central.firstBatch.flatten ++ cs.central.freeList : List Nat) :
        Multiset Nat)) tails where
  caches := inv.caches
  central := {
    batches_full := by
      rw [batches_of_not_small _ large]
      exact fun _ member => nomatch member
    store := fun small => by rw [large] at small; cases small
    freeListSize := rfl
    aligned := inv.central.aligned
    bounds := inv.central.bounds
    minChunkAddr := inv.central.minChunkAddr
    tails := inv.central.tails.congr rfl rfl }
  nodup := inv.nodup
  ledger := by
    have ledger := inv.ledger
    simp only [ClassState.cached, ClassState.blocks, CentralCache.stock,
      batches_of_not_small _ large, List.flatten_nil, Multiset.coe_nil] at ledger ⊢
    rw [← ledger, ← Multiset.coe_add]
    abel

end ClassInv

end Class

end MallocSurvey.Ltalloc
