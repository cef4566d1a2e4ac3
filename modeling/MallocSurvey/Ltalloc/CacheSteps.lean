import MallocSurvey.Ltalloc.CentralInvariant

/-! # What the cache functions do

Every function succeeds on caches that satisfy their invariants, keeps them, and
only moves blocks: from the caches to the caller, from the caller to the caches,
or from one list to another. -/

namespace MallocSurvey.Ltalloc

open Library

variable {sizeClass : Nat} {tc : ThreadCache} {cc : CentralCache} {chunks : List Nat}
  {lastWord : Nat → Nat} {tails : List Nat}

/-! ## Fetching -/

/-- A block has been handed out. -/
structure HandedOut (sizeClass : Nat) (tc : ThreadCache) (cc : CentralCache)
    (chunks : List Nat) (lastWord : Nat → Nat) (tails : List Nat) (block : Nat)
    (newTc : ThreadCache) (newCc : CentralCache) (newTails : List Nat) : Prop where
  law : CounterLaw sizeClass newTc
  inv : CentralInv sizeClass newCc chunks lastWord newTails
  stock : {block} + newTc.stock + newCc.stock sizeClass newTails =
    tc.stock + cc.stock sizeClass tails

theorem handOut_eq {taken : List Nat} (after : CentralCache) {counter : Int}
    (nonempty : taken ≠ [])
    (counterEq : counter = batchSize sizeClass + 1 - (taken.length - 1 : Int))
    (short : taken.length ≤ batchSize sizeClass + 2)
    (noTemp : tc.tempList = []) :
    ∃ block newTc, handOut taken { tc with counter } after =
        some (.block block newTc after) ∧
      CounterLaw sizeClass newTc ∧ {block} + newTc.stock = (taken : Multiset Nat) := by
  cases taken with
  | nil => exact absurd rfl nonempty
  | cons first rest =>
      refine ⟨first, _, rfl, .inr ⟨?_, ?_, .inl noTemp⟩, ?_⟩
      · simp only [counterEq, List.length_cons]
        omega
      · simp only [counterEq, List.length_cons] at short ⊢
        omega
      · simp only [ThreadCache.stock, noTemp, Multiset.coe_nil, add_zero]
        rw [← Multiset.cons_coe, ← Multiset.singleton_add]

/-- Handing out the head of a list taken from the central cache. -/
theorem handOut_taken {taken : List Nat} {after : CentralCache} {newTails : List Nat}
    {counter : Int} (nonempty : taken ≠ [])
    (counterEq : counter = batchSize sizeClass + 1 - (taken.length - 1 : Int))
    (short : taken.length ≤ batchSize sizeClass + 2)
    (inv : CentralInv sizeClass after chunks lastWord newTails)
    (stock : (taken : Multiset Nat) + after.stock sizeClass newTails =
      cc.stock sizeClass tails)
    (empty : tc.freeList = []) (noTemp : tc.tempList = []) :
    ∃ block newTc, handOut taken { tc with counter } after =
        some (.block block newTc after) ∧
      HandedOut sizeClass tc cc chunks lastWord tails block newTc after newTails := by
  obtain ⟨block, newTc, result, law, handed⟩ :=
    handOut_eq after nonempty counterEq short noTemp
  refine ⟨block, newTc, result, law, inv, ?_⟩
  rw [handed, stock]
  simp only [ThreadCache.stock, empty, noTemp, Multiset.coe_nil, add_zero, zero_add]

/-- `freeListSize` tells how to take from the loose blocks: always below `2^32`
of them, and above when the wrapped size still exceeds a batch. -/
def FreeListServes (sizeClass : Nat) (cc : CentralCache) : Prop :=
  cc.freeList.length < 2 ^ 32 ∨
    batchSize sizeClass + 2 < cc.freeList.length % 2 ^ 32

theorem CentralInv.of_freeList {after : CentralCache}
    (inv : CentralInv sizeClass cc chunks lastWord tails)
    (same : after = { cc with
      freeList := after.freeList, freeListSize := after.freeListSize })
    (size : after.freeListSize = after.freeList.length % 2 ^ 32) :
    CentralInv sizeClass after chunks lastWord tails := by
  rw [same]
  exact ⟨inv.batches_full, inv.store, size, inv.aligned, inv.bounds, inv.minChunkAddr,
    inv.tails.congr rfl rfl⟩

theorem takeFreeList_spec (geometry : Geometry sizeClass)
    (inv : CentralInv sizeClass cc chunks lastWord tails)
    (serves : FreeListServes sizeClass cc) (loose : cc.freeList ≠ [])
    (empty : tc.freeList = []) (noTemp : tc.tempList = []) (counter : tc.counter = 1) :
    ∃ block newTc newCc, takeFreeList sizeClass tc cc =
        some (.block block newTc newCc) ∧
      HandedOut sizeClass tc cc chunks lastWord tails block newTc newCc tails := by
  have size := inv.freeListSize
  have positive : 0 < cc.freeList.length := List.length_pos_iff.mpr loose
  have batchLe := geometry.batch_le
  have sizePos : cc.freeListSize ≠ 0 := by
    rcases serves with short | large <;> omega
  unfold takeFreeList
  rw [if_pos sizePos]
  by_cases few : cc.freeListSize ≤ batchSize sizeClass + 1 + 1
  · have exact : cc.freeListSize = cc.freeList.length := by
      rcases serves with short | large <;> omega
    obtain ⟨block, newTc, result, handed⟩ := @handOut_taken _ _ _ _ _ _ _ { cc with freeListSize := 0, freeList := [] } _ (((batchSize sizeClass + 1 : Nat) : Int) - cc.freeListSize + 1) loose
      (by omega) (by omega) (inv.of_freeList rfl rfl)
      (by simp only [CentralCache.stock, CentralCache.batches, Multiset.coe_nil]; abel)
      empty noTemp
    rw [if_pos few]
    exact ⟨block, newTc, _, result, handed⟩
  · have enough : batchSize sizeClass + 1 ≤ cc.freeList.length := by
      rcases serves with short | large <;> omega
    have takeLength : (cc.freeList.take (batchSize sizeClass + 1)).length =
        batchSize sizeClass + 1 := by
      rw [List.length_take]
      omega
    obtain ⟨block, newTc, result, handed⟩ := @handOut_taken _ _ _ _ _ _ (cc.freeList.take (batchSize sizeClass + 1)) { cc with
        freeListSize := cc.freeListSize - (batchSize sizeClass + 1)
        freeList := cc.freeList.drop (batchSize sizeClass + 1) } _ 1
      (List.ne_nil_of_length_pos (by omega)) (by omega) (by omega)
      (inv.of_freeList rfl (by simp only [List.length_drop]; omega))
      (by
        simp only [CentralCache.stock, CentralCache.batches]
        nth_rewrite 3 [← List.take_append_drop (batchSize sizeClass + 1) cc.freeList]
        rw [← Multiset.coe_add]
        abel)
      empty noTemp
    rw [if_neg few, if_pos enough]
    rw [← counter] at result
    exact ⟨block, newTc, _, result, handed⟩

/-! ## Carving -/

/-- The number of blocks carved at once. -/
theorem carve_count (sizeClass free : Nat) :
    (if free < batchSize sizeClass + 1 then free else batchSize sizeClass + 1) =
      min free (batchSize sizeClass + 1) := by
  rw [Nat.min_def]
  split_ifs <;> omega

theorem carve_counter {free : Nat} {counter : Int} (isOne : counter = 1) :
    (if free < batchSize sizeClass + 1 then
        ((batchSize sizeClass + 1 : Nat) : Int) - free + 1 else counter) =
      batchSize sizeClass + 1 - ((min free (batchSize sizeClass + 1) : Nat) - 1 : Int) := by
  rw [Nat.min_def, isOne]
  split_ifs <;> omega

/-- The head of the chain of tails, in terms of its chunk. -/
theorem TailsOf.head (tailsOf : TailsOf sizeClass cc chunks lastWord tails)
    (uncarved : cc.freeBlocksInLastChunk ≠ 0) :
    ∃ rest chunk count, tails = cc.lastChunk :: rest ∧ chunk ∈ chunks ∧ 0 < count ∧
      count < numBlocksInChunk sizeClass ∧
      cc.lastChunk = tailStart sizeClass chunk count ∧
      cc.freeBlocksInLastChunk = blocksFrom sizeClass cc.lastChunk := by
  rcases tailsOf.last with ⟨_, zero⟩ | ⟨rest, isTails, free⟩
  · exact absurd zero uncarved
  · obtain ⟨chunk, isChunk, count, positive, inChunk, position⟩ :=
      tailsOf.position cc.lastChunk (isTails ▸ List.mem_cons_self)
    exact ⟨rest, chunk, count, isTails, isChunk, positive, inChunk, position, free⟩

theorem carveLastChunk_spec (geometry : Geometry sizeClass)
    (inv : CentralInv sizeClass cc chunks lastWord tails)
    (uncarved : cc.freeBlocksInLastChunk ≠ 0)
    (empty : tc.freeList = []) (noTemp : tc.tempList = []) (isOne : tc.counter = 1) :
    ∃ block newTc newCc newTails, carveLastChunk sizeClass tc cc lastWord =
        some (.block block newTc newCc) ∧
      HandedOut sizeClass tc cc chunks lastWord tails block newTc newCc newTails := by
  obtain ⟨rest, chunk, count, isTails, isChunk, positive, inChunk, position, free⟩ :=
    inv.tails.head uncarved
  subst isTails
  have aligned := inv.aligned chunk isChunk
  rw [position, blocksFrom_tailStart geometry aligned.1 inChunk.le positive] at free
  have chain := inv.tails.chain
  obtain ⟨_, nonzero, restLast⟩ := TailChain.cons_iff.mp chain
  rw [position, regionEnd_tailStart geometry aligned.1 inChunk.le positive] at restLast
  unfold carveLastChunk
  have guardHolds : cc.lastChunk ≠ 0 ∧ cc.freeBlocksInLastChunk =
      (chunkSize - cc.lastChunk % chunkSize) / classToSize sizeClass := by
    refine ⟨nonzero, ?_⟩
    change _ = blocksFrom sizeClass cc.lastChunk
    rw [free, position, blocksFrom_tailStart geometry aligned.1 inChunk.le positive]
  rw [if_pos guardHolds]
  simp only [carve_count, carve_counter isOne, free]
  generalize amount : min count (batchSize sizeClass + 1) = carved
  have carvedPos : 0 < carved := by omega
  have carvedLe : carved ≤ count := by omega
  have advance : cc.lastChunk + classToSize sizeClass * carved =
      tailStart sizeClass chunk (count - carved) := by
    rw [position, Nat.mul_comm, tailStart_advance geometry inChunk.le positive carvedLe]
  have taken : run cc.lastChunk carved (classToSize sizeClass) ≠ [] := by
    apply List.ne_nil_of_length_pos
    rw [run_length]
    exact carvedPos
  rw [advance]
  by_cases exhausted : count - carved = 0
  · have allCarved : carved = count := by omega
    rw [if_pos exhausted, exhausted, tailStart_zero]
    rw [if_pos (by rw [Nat.add_mod_right]; exact aligned.1)]
    generalize hookedEq : lastWord (chunk + chunkSize) = hooked at restLast
    have restHead : rest.headD 0 = hooked := by cases restLast <;> rfl
    obtain ⟨block, newTc, result, handed⟩ := @handOut_taken _ _ _ _ _ (cc.lastChunk :: rest) _ { cc with
        freeBlocksInLastChunk := if hooked ≠ 0 then
          (chunkSize - hooked % chunkSize) / classToSize sizeClass else 0
        lastChunk := hooked } _ _ taken
      (by rw [run_length]) (by rw [run_length]; omega)
      { inv with
        tails := {
          chain := restHead ▸ restLast
          last := by
            cases restLast with
            | nil => exact .inl ⟨rfl, by simp⟩
            | @cons _ others hookedNonzero _ =>
                exact .inr ⟨others, rfl, by simp [hookedNonzero, blocksFrom]⟩
          position := fun tail member =>
            inv.tails.position tail (List.mem_cons_of_mem _ member)
          ends := (List.nodup_cons.mp inv.tails.ends).2
          large := fun _ => inv.tails.large (List.cons_ne_nil _ _) } }
      (by
        have whole : tailBlocks sizeClass cc.lastChunk =
            run cc.lastChunk carved (classToSize sizeClass) := by
          rw [allCarved, position, tailBlocks,
            blocksFrom_tailStart geometry aligned.1 inChunk.le positive]
        simp only [CentralCache.stock, CentralCache.batches, List.flatMap_cons, whole,
          ← Multiset.coe_add]
        abel)
      empty noTemp
    exact ⟨block, newTc, _, rest, result, handed⟩
  · have remains : 0 < count - carved := by omega
    have sameRegion : regionEnd chunkSize (tailStart sizeClass chunk (count - carved)) =
        regionEnd chunkSize cc.lastChunk := by
      rw [position, regionEnd_tailStart geometry aligned.1 inChunk.le positive,
        regionEnd_tailStart geometry aligned.1 (by omega) remains]
    have nextNonzero : tailStart sizeClass chunk (count - carved) ≠ 0 := by omega
    rw [if_neg exhausted]
    obtain ⟨block, newTc, result, handed⟩ := @handOut_taken _ _ _ _ _ (cc.lastChunk :: rest) _ { cc with
        freeBlocksInLastChunk := count - carved
        lastChunk := tailStart sizeClass chunk (count - carved) } _ _ taken
      (by rw [run_length]) (by rw [run_length]; omega)
      { inv with
        tails := {
          chain := chain.advance sameRegion nextNonzero
          last := .inr ⟨rest, rfl,
            (blocksFrom_tailStart geometry aligned.1 (by omega) remains).symm⟩
          position := by
            intro tail member
            rcases List.mem_cons.mp member with isHead | member
            · exact ⟨chunk, isChunk, count - carved, remains, by omega, isHead⟩
            · exact inv.tails.position tail (List.mem_cons_of_mem _ member)
          ends := by
            rw [List.map_cons, sameRegion]
            exact inv.tails.ends
          large := fun _ => inv.tails.large (List.cons_ne_nil _ _) } }
      (by
        have split := @tailBlocks_split _ _ _ carved geometry aligned.1 inChunk.le
          (by omega)
        rw [← position] at split
        simp only [CentralCache.stock, CentralCache.batches, List.flatMap_cons, split,
          ← Multiset.coe_add]
        abel)
      empty noTemp
    exact ⟨block, newTc, _, _, result, handed⟩

/-! ## New chunks -/

theorem insertChunkSm_batches (chunk : Nat) (cc : CentralCache) :
    ((insertChunkSm chunk cc).chunksBefore ++
        (insertChunkSm chunk cc).chunksFrom).flatMap ChunkSm.batches =
      (cc.chunksBefore ++ cc.chunksFrom).flatMap ChunkSm.batches := by
  unfold insertChunkSm
  cases current : cc.chunksFrom with
  | nil => simp
  | cons cs after => simp

theorem SmallStore.insert {chunk : Nat}
    (store : SmallStore cc.chunksBefore cc.chunksFrom chunks) :
    SmallStore (insertChunkSm chunk cc).chunksBefore (insertChunkSm chunk cc).chunksFrom
      (chunk :: chunks) := by
  have count := store.count
  unfold insertChunkSm
  cases current : cc.chunksFrom with
  | nil =>
      rw [current] at count
      refine ⟨store.full, ?_, ?_, ?_, ?_⟩
      · intro head isHead
        cases isHead
        exact Nat.zero_le _
      · intro other member
        cases member
      · simp only [List.length_cons] at count ⊢
        omega
      · intro null
        cases null
  | cons cs after =>
      rw [current] at count
      refine ⟨store.full, ?_, ?_, ?_, ?_⟩
      · intro head isHead
        cases isHead
        exact store.fits cs (by rw [current]; rfl)
      · intro other member
        rcases List.mem_cons.mp member with isNew | member
        · rw [isNew]
        · exact store.empty other (by rw [current]; exact member)
      · simp only [List.length_cons] at count ⊢
        omega
      · intro null
        cases null

/-- The tails once a chunk has been carved down to its last `left` blocks. -/
theorem TailsOf.insert {after : CentralCache} {chunk left : Nat} {hooked : Nat → Nat}
    (geometry : Geometry sizeClass)
    (tailsOf : TailsOf sizeClass cc chunks lastWord tails)
    (alignedAll : ∀ chunk ∈ chunks, chunk % chunkSize = 0 ∧ chunk ≠ 0)
    (aligned : chunk % chunkSize = 0) (fresh : chunk ∉ chunks)
    (isLeft : left = numBlocksInChunk sizeClass - (batchSize sizeClass + 1))
    (link : left ≠ 0 → hooked (chunk + chunkSize) = tails.headD 0)
    (same : ∀ address, address ≠ chunk + chunkSize → hooked address = lastWord address)
    (freeBlocks : after.freeBlocksInLastChunk = left)
    (lastChunk : after.lastChunk = tailStart sizeClass chunk left) :
    TailsOf sizeClass after (chunk :: chunks) hooked
      (if left = 0 then tails else tailStart sizeClass chunk left :: tails) := by
  by_cases whole : left = 0
  · have noTails : tails = [] := by
      by_contra nonempty
      have := tailsOf.large nonempty
      omega
    subst noTails
    rw [if_pos whole]
    exact ⟨.nil, .inl ⟨rfl, freeBlocks.trans whole⟩, (fun _ member => nomatch member),
      List.nodup_nil, fun nonempty => absurd rfl nonempty⟩
  · have inChunk : left < numBlocksInChunk sizeClass := by omega
    have positive : 0 < left := Nat.pos_of_ne_zero whole
    have isEnd := regionEnd_tailStart geometry aligned inChunk.le positive
    have otherEnds : ∀ tail ∈ tails, regionEnd chunkSize tail ≠ chunk + chunkSize := by
      intro tail member equal
      obtain ⟨other, isChunk, count, countPos, countLt, position⟩ :=
        tailsOf.position tail member
      rw [position, regionEnd_tailStart geometry (alignedAll other isChunk).1
        countLt.le countPos] at equal
      exact fresh (Nat.add_right_cancel equal ▸ isChunk)
    rw [if_neg whole]
    refine ⟨?_, .inr ⟨tails, by rw [lastChunk], ?_⟩, ?_, ?_, fun _ => by omega⟩
    · rw [List.headD_cons]
      refine .cons ?_ ?_
      · obtain ⟨offset, equal, _, header, _⟩ :=
          @tailStart_offset _ chunk _ geometry inChunk.le positive
        omega
      · rw [isEnd, link whole]
        exact tailsOf.chain.congr fun tail member => same _ (otherEnds tail member)
    · rw [freeBlocks, lastChunk,
        blocksFrom_tailStart geometry aligned inChunk.le positive]
    · intro tail member
      rcases List.mem_cons.mp member with isNew | member
      · exact ⟨chunk, List.mem_cons_self, left, positive, inChunk, isNew⟩
      · obtain ⟨other, isChunk, position⟩ := tailsOf.position tail member
        exact ⟨other, List.mem_cons_of_mem _ isChunk, position⟩
    · rw [List.map_cons, List.nodup_cons, isEnd]
      refine ⟨fun member => ?_, tailsOf.ends⟩
      obtain ⟨tail, isTail, equal⟩ := List.mem_map.mp member
      exact otherEnds tail isTail equal

/-- A chunk has been inserted and its first blocks handed out. -/
structure ChunkInserted (sizeClass chunk : Nat) (cc : CentralCache) (chunks : List Nat)
    (tails : List Nat) (block : Nat) (newTc : ThreadCache) (newCc : CentralCache)
    (hooked : Nat → Nat) (newTails : List Nat) : Prop where
  law : CounterLaw sizeClass newTc
  inv : CentralInv sizeClass newCc (chunk :: chunks) hooked newTails
  stock : {block} + newTc.stock + newCc.stock sizeClass newTails =
    cc.stock sizeClass tails + (chunkBlocks sizeClass chunk : Multiset Nat)

theorem chunkBlocks_split {chunk left : Nat} (geometry : Geometry sizeClass)
    (aligned : chunk % chunkSize = 0)
    (isLeft : left = numBlocksInChunk sizeClass - (batchSize sizeClass + 1)) :
    chunkBlocks sizeClass chunk =
      run (tailStart sizeClass chunk (numBlocksInChunk sizeClass))
          (min (numBlocksInChunk sizeClass) (batchSize sizeClass + 1))
          (classToSize sizeClass) ++
        if left = 0 then [] else
          tailBlocks sizeClass (tailStart sizeClass chunk left) := by
  have positive := geometry.blocks_pos
  by_cases whole : left = 0
  · rw [if_pos whole, List.append_nil, Nat.min_eq_left (by omega), chunkBlocks]
  · have split := @tailBlocks_split _ _ _ (batchSize sizeClass + 1) geometry aligned
      (Nat.le_refl _) (by omega)
    rw [tailBlocks, blocksFrom_tailStart geometry aligned (Nat.le_refl _) positive] at split
    rw [if_neg whole, Nat.min_eq_right (by omega), chunkBlocks, split, isLeft]

theorem TailsOf.freeBlocks_eq_zero_iff (geometry : Geometry sizeClass)
    (tailsOf : TailsOf sizeClass cc chunks lastWord tails)
    (aligned : ∀ chunk ∈ chunks, chunk % chunkSize = 0 ∧ chunk ≠ 0) :
    cc.freeBlocksInLastChunk = 0 ↔ tails = [] := by
  rcases tailsOf.last with ⟨noTails, noFree⟩ | ⟨rest, isTails, free⟩
  · simp [noTails, noFree]
  · obtain ⟨chunk, isChunk, count, positive, inChunk, position⟩ :=
      tailsOf.position cc.lastChunk (isTails ▸ List.mem_cons_self)
    rw [position, blocksFrom_tailStart geometry (aligned chunk isChunk).1 inChunk.le
      positive] at free
    simp only [isTails, reduceCtorEq, iff_false]
    omega

/-- Hooking the present tails at the end of the new chunk. -/
theorem hook_spec {chunk left : Nat} (geometry : Geometry sizeClass)
    (inv : CentralInv sizeClass cc chunks lastWord tails)
    (aligned : chunk % chunkSize = 0) (zeroFilled : lastWord (chunk + chunkSize) = 0)
    (isLeft : left = numBlocksInChunk sizeClass - (batchSize sizeClass + 1))
    {hooked : Nat → Nat}
    (isHooked : hooked = if cc.freeBlocksInLastChunk ≠ 0 then
      Function.update lastWord (regionEnd chunkSize (tailStart sizeClass chunk left))
        cc.lastChunk else lastWord) :
    (left ≠ 0 → hooked (chunk + chunkSize) = tails.headD 0) ∧
      ∀ address, address ≠ chunk + chunkSize → hooked address = lastWord address := by
  have free := inv.tails.freeBlocks_eq_zero_iff geometry inv.aligned
  rcases inv.tails.last with ⟨noTails, noFree⟩ | ⟨rest, isTails, _⟩
  · rw [isHooked, noFree, noTails]
    exact ⟨fun _ => zeroFilled, fun _ _ => rfl⟩
  · have large := inv.tails.large (isTails ▸ List.cons_ne_nil _ _)
    have isEnd := @regionEnd_tailStart _ _ left geometry aligned (by omega) (by omega)
    have uncarved : cc.freeBlocksInLastChunk ≠ 0 := by
      rw [ne_eq, free, isTails]
      exact List.cons_ne_nil _ _
    rw [isHooked, if_pos uncarved, isEnd, isTails]
    refine ⟨fun _ => Function.update_self _ _ _, fun address different => ?_⟩
    exact Function.update_of_ne different _ _

theorem linkChunk_batches (sizeClass chunk : Nat) (cc : CentralCache) :
    (linkChunk sizeClass chunk cc).batches sizeClass = cc.batches sizeClass := by
  cases small : chunkIsSmall sizeClass with
  | false =>
      rw [batches_of_not_small _ small, batches_of_not_small _ small, linkChunk, small,
        if_neg Bool.false_ne_true]
  | true =>
      rw [batches_of_small _ small, batches_of_small _ small, linkChunk, if_pos small,
        insertChunkSm_batches]

theorem linkChunk_freeList (sizeClass chunk : Nat) (cc : CentralCache) :
    (linkChunk sizeClass chunk cc).freeList = cc.freeList ∧
      (linkChunk sizeClass chunk cc).freeListSize = cc.freeListSize := by
  rw [linkChunk]
  cases chunkIsSmall sizeClass with
  | false => exact ⟨rfl, rfl⟩
  | true =>
      simp only [if_true, insertChunkSm]
      cases cc.chunksFrom <;> exact ⟨rfl, rfl⟩

theorem linkChunk_bounds (sizeClass chunk : Nat) (cc : CentralCache) :
    (linkChunk sizeClass chunk cc).minChunkAddr =
        (if chunk < cc.minChunkAddr ∨ cc.minChunkAddr = 0 then chunk
          else cc.minChunkAddr) ∧
      (linkChunk sizeClass chunk cc).maxChunkAddr =
        if chunk > cc.maxChunkAddr then chunk else cc.maxChunkAddr := by
  rw [linkChunk]
  cases chunkIsSmall sizeClass with
  | false => exact ⟨rfl, rfl⟩
  | true =>
      simp only [if_true, insertChunkSm]
      cases cc.chunksFrom <;> exact ⟨rfl, rfl⟩

theorem linkChunk_stock (sizeClass chunk freeBlocks lastChunk : Nat)
    (cc : CentralCache) (newTails : List Nat) :
    CentralCache.stock sizeClass { linkChunk sizeClass chunk cc with
        freeBlocksInLastChunk := freeBlocks, lastChunk } newTails =
      ((cc.batches sizeClass).flatten : Multiset Nat) + (cc.freeList : Multiset Nat) +
        (newTails.flatMap (tailBlocks sizeClass) : Multiset Nat) := by
  have batches : CentralCache.batches sizeClass { linkChunk sizeClass chunk cc with
      freeBlocksInLastChunk := freeBlocks, lastChunk } = cc.batches sizeClass :=
    linkChunk_batches sizeClass chunk cc
  rw [CentralCache.stock, batches]
  simp only [linkChunk_freeList]

/-- The central cache once a chunk is in it and its tail is the last one. -/
theorem CentralInv.insert {chunk freeBlocks lastChunk : Nat} {hooked : Nat → Nat}
    {newTails : List Nat} (inv : CentralInv sizeClass cc chunks lastWord tails)
    (aligned : chunk % chunkSize = 0) (nonzero : chunk ≠ 0)
    (tailsOf : TailsOf sizeClass { linkChunk sizeClass chunk cc with
      freeBlocksInLastChunk := freeBlocks, lastChunk } (chunk :: chunks) hooked newTails) :
    CentralInv sizeClass { linkChunk sizeClass chunk cc with
      freeBlocksInLastChunk := freeBlocks, lastChunk } (chunk :: chunks) hooked
      newTails where
  batches_full := by
    change ∀ batch ∈ (linkChunk sizeClass chunk cc).batches sizeClass, _
    rw [linkChunk_batches]
    exact inv.batches_full
  store := by
    intro small
    have store := (inv.store small)
    simp only [linkChunk, if_pos small]
    exact SmallStore.insert store
  freeListSize := by
    simp only [linkChunk_freeList]
    exact inv.freeListSize
  aligned := by
    intro other member
    rcases List.mem_cons.mp member with isNew | member
    · exact isNew ▸ ⟨aligned, nonzero⟩
    · exact inv.aligned other member
  bounds := by
    intro other member
    simp only [linkChunk_bounds]
    rcases List.mem_cons.mp member with isNew | member
    · subst isNew
      split_ifs <;> omega
    · have bounds := inv.bounds other member
      have minNonzero := inv.minChunkAddr.1 (List.ne_nil_of_mem member)
      split_ifs <;> omega
  minChunkAddr := by
    have minAligned := inv.minChunkAddr.2
    simp only [linkChunk_bounds]
    split_ifs with lower
    · exact ⟨fun _ => nonzero, aligned⟩
    · exact ⟨fun _ => (not_or.mp lower).2, minAligned⟩
  tails := tailsOf

theorem insertChunk_spec {chunk : Nat} (geometry : Geometry sizeClass)
    (inv : CentralInv sizeClass cc chunks lastWord tails)
    (aligned : chunk % chunkSize = 0) (nonzero : chunk ≠ 0) (fresh : chunk ∉ chunks)
    (zeroFilled : lastWord (chunk + chunkSize) = 0) :
    ∃ block newTc newCc hooked newTails,
      insertChunk sizeClass chunk .fetching cc lastWord =
        some (.block block newTc newCc, hooked) ∧
      (∀ address, address ≠ chunk + chunkSize → hooked address = lastWord address) ∧
      ChunkInserted sizeClass chunk cc chunks tails block newTc newCc hooked newTails := by
  have positive := geometry.blocks_pos
  generalize isLeft : numBlocksInChunk sizeClass - (batchSize sizeClass + 1) = left
  have leftCount : numBlocksInChunk sizeClass -
      min (numBlocksInChunk sizeClass) (batchSize sizeClass + 1) = left := by omega
  have firstFree : chunk + chunkSize - numBlocksInChunk sizeClass * classToSize sizeClass +
      min (numBlocksInChunk sizeClass) (batchSize sizeClass + 1) * classToSize sizeClass =
      tailStart sizeClass chunk left := by
    rw [← leftCount, ← tailStart_advance geometry (Nat.le_refl _) positive (by omega)]
    rfl
  unfold insertChunk
  simp only [if_pos zeroFilled, carve_count, ThreadCache.fetching]
  rw [carve_counter rfl, firstFree, leftCount]
  generalize hookedEq : (if cc.freeBlocksInLastChunk ≠ 0 then
    Function.update lastWord (regionEnd chunkSize (tailStart sizeClass chunk left))
      cc.lastChunk else lastWord) = hooked
  have hookedSpec := hook_spec geometry inv aligned zeroFilled isLeft.symm hookedEq.symm
  have newInv := @CentralInv.insert sizeClass cc chunks lastWord tails chunk _
    (tailStart sizeClass chunk left) _ _ inv aligned nonzero
    (inv.tails.insert geometry inv.aligned aligned fresh isLeft.symm hookedSpec.1
      hookedSpec.2 rfl rfl)
  have length := run_length (tailStart sizeClass chunk (numBlocksInChunk sizeClass))
    (min (numBlocksInChunk sizeClass) (batchSize sizeClass + 1)) (classToSize sizeClass)
  obtain ⟨block, newTc, result, law, handed⟩ := @handOut_eq sizeClass ⟨[], [], 1⟩ _ { linkChunk sizeClass chunk cc with
      freeBlocksInLastChunk := left, lastChunk := tailStart sizeClass chunk left } _
    (List.ne_nil_of_length_pos (by rw [length]; omega)) (by rw [length])
    (by rw [length]; omega) rfl
  refine ⟨block, newTc, _, hooked, _, ?_, hookedSpec.2, law, newInv, ?_⟩
  · split
    · next fails => cases fails.symm.trans result
    · next fetched isFetched =>
        cases isFetched.symm.trans result
        rfl
  · rw [handed, chunkBlocks_split geometry aligned isLeft.symm, linkChunk_stock,
      CentralCache.stock]
    by_cases whole : left = 0
    · simp only [if_pos whole, List.append_nil]
      abel
    · simp only [if_neg whole, List.flatMap_cons, ← Multiset.coe_add]
      abel

/-! ## Allocation -/

/-- The fetch takes blocks from the loose ones of the central cache. -/
def TakesFreeList (sizeClass : Nat) (tc : ThreadCache) (cc : CentralCache) : Prop :=
  tc.freeList = [] ∧ tc.tempList = [] ∧ takeBatch sizeClass cc = some none ∧
    cc.freeList ≠ []

/-- The outcomes of the first locked section of `ltmalloc`. -/
inductive Malloced (sizeClass : Nat) (tc : ThreadCache) (cc : CentralCache)
    (chunks : List Nat) (lastWord : Nat → Nat) (tails : List Nat) :
    Option Fetched → Prop
  | block {block : Nat} {newTc : ThreadCache} {newCc : CentralCache}
      {newTails : List Nat} :
      HandedOut sizeClass tc cc chunks lastWord tails block newTc newCc newTails →
      Malloced sizeClass tc cc chunks lastWord tails (some (.block block newTc newCc))
  | needChunk : tc.freeList = [] → tc.tempList = [] →
      Malloced sizeClass tc cc chunks lastWord tails (some (.needChunk .fetching))

theorem noFreeBatch_spec (geometry : Geometry sizeClass)
    (inv : CentralInv sizeClass cc chunks lastWord tails)
    (serves : cc.freeList ≠ [] → FreeListServes sizeClass cc)
    (empty : tc.freeList = []) (noTemp : tc.tempList = []) (isOne : tc.counter = 1) :
    Malloced sizeClass tc cc chunks lastWord tails
      (noFreeBatch sizeClass tc cc lastWord) := by
  unfold noFreeBatch
  by_cases loose : cc.freeList ≠ []
  · obtain ⟨block, newTc, newCc, result, handed⟩ :=
      takeFreeList_spec geometry inv (serves loose) loose empty noTemp isOne
    rw [if_pos loose, result]
    exact .block handed
  · rw [if_neg loose]
    by_cases uncarved : cc.freeBlocksInLastChunk ≠ 0
    · obtain ⟨block, newTc, newCc, newTails, result, handed⟩ :=
        carveLastChunk_spec geometry inv uncarved empty noTemp isOne
      rw [if_pos uncarved, result]
      exact .block handed
    · rw [if_neg uncarved]
      have isFetching : tc = .fetching := by
        cases tc
        simp only at empty noTemp isOne
        rw [empty, noTemp, isOne, ThreadCache.fetching]
      rw [isFetching]
      exact .needChunk rfl rfl

theorem fetchFromCentralCache_spec (geometry : Geometry sizeClass)
    (inv : CentralInv sizeClass cc chunks lastWord tails)
    (law : CounterLaw sizeClass tc) (empty : tc.freeList = [])
    (serves : TakesFreeList sizeClass tc cc → FreeListServes sizeClass cc) :
    Malloced sizeClass tc cc chunks lastWord tails
      (fetchFromCentralCache sizeClass tc cc lastWord) := by
  unfold fetchFromCentralCache
  by_cases temp : tc.tempList ≠ []
  · have counterEq : tc.counter = batchSize sizeClass + 1 := by
      rcases law with isInitial | ⟨counterEq, _, _⟩
      · exact absurd (isInitial ▸ rfl) temp
      · rw [counterEq, empty]
        simp
    have full : tc.tempList.length = batchSize sizeClass + 1 := by
      rcases law with isInitial | ⟨_, _, noTemp | full⟩
      · exact absurd (isInitial ▸ rfl) temp
      · exact absurd noTemp temp
      · exact full
    rw [if_pos temp, if_pos counterEq]
    obtain ⟨block, newTc, result, newLaw, handed⟩ := @handOut_eq
      sizeClass { tc with tempList := [] } _ cc 1 temp (by rw [full]; omega)
      (by omega) rfl
    rw [result]
    refine .block ⟨newLaw, inv, ?_⟩
    rw [handed, ThreadCache.stock, empty]
    simp
  · have noTemp : tc.tempList = [] := not_not.mp temp
    have counterOk : tc.counter = 0 ∨ tc.counter = batchSize sizeClass + 1 := by
      rcases law with isInitial | ⟨counterEq, _, _⟩
      · exact .inl (isInitial ▸ rfl)
      · refine .inr ?_
        rw [counterEq, empty]
        simp
    rw [if_neg temp, if_pos counterOk]
    rcases takeBatch_spec inv with noBatch | ⟨batch, after, result, taken⟩
    · simp only [noBatch]
      have spec := @noFreeBatch_spec _ { tc with counter := 1 } _ _ _ _ geometry inv
        (fun loose => serves ⟨empty, noTemp, noBatch, loose⟩) empty noTemp rfl
      generalize noFreeBatch sizeClass { tc with counter := 1 } cc lastWord = outcome at spec
      cases spec with
      | block handed => exact .block ⟨handed.law, handed.inv, handed.stock⟩
      | needChunk _ _ => exact .needChunk empty noTemp
    · simp only [result]
      obtain ⟨block, newTc, handedResult, newLaw, handed⟩ := @handOut_eq
        sizeClass tc _ after 1 (List.ne_nil_of_length_pos (by rw [taken.full]; omega))
        (by rw [taken.full]; omega) (by rw [taken.full]; omega) noTemp
      rw [handedResult]
      refine .block ⟨newLaw, taken.inv, ?_⟩
      rw [handed, taken.stock, ThreadCache.stock, empty, noTemp]
      simp

theorem ltmalloc_spec (geometry : Geometry sizeClass)
    (inv : CentralInv sizeClass cc chunks lastWord tails)
    (law : CounterLaw sizeClass tc)
    (serves : TakesFreeList sizeClass tc cc → FreeListServes sizeClass cc) :
    Malloced sizeClass tc cc chunks lastWord tails
      (ltmalloc sizeClass tc cc lastWord) := by
  unfold ltmalloc
  cases cached : tc.freeList with
  | nil => exact fetchFromCentralCache_spec geometry inv law cached serves
  | cons fb rest =>
      refine .block ⟨.inr ?_, inv, ?_⟩
      · rcases law with isInitial | ⟨counterEq, nonneg, temp⟩
        · rw [isInitial] at cached
          cases cached
        · rw [cached, List.length_cons] at counterEq
          refine ⟨?_, ?_, temp⟩
          · simp only
            omega
          · simp only
            omega
      · simp only [ThreadCache.stock, cached]
        rw [← Multiset.cons_coe, ← Multiset.singleton_add]
        abel

/-! ## Freeing -/

/-- There is a place for one more batch in the chunks of the smallest blocks. -/
def HasRoom (sizeClass : Nat) (cc : CentralCache) (chunks : List Nat) : Prop :=
  chunkIsSmall sizeClass = true →
    ((cc.batches sizeClass).length + 1) * (batchSize sizeClass + 1) ≤
      numBlocksInChunk sizeClass * chunks.length

theorem SmallStore.stored_length {current : ChunkSm} {before : List ChunkSm}
    (full : ∀ cs ∈ before, cs.batches.length = numOfBatchesInChunkSm) :
    ((before ++ [current]).flatMap ChunkSm.batches).length =
      before.length * numOfBatchesInChunkSm + current.batches.length := by
  induction before with
  | nil => simp
  | cons head rest induction =>
      have restLength := induction fun cs member => full cs (List.mem_cons_of_mem _ member)
      rw [List.cons_append, List.flatMap_cons, List.length_append, restLength,
        full head List.mem_cons_self, List.length_cons, Nat.add_mul]
      omega

/-- A batch has been put into the central cache. -/
structure BatchAdded (sizeClass : Nat) (cc : CentralCache) (chunks : List Nat)
    (lastWord : Nat → Nat) (tails : List Nat) (batch : List Nat)
    (after : CentralCache) : Prop where
  inv : CentralInv sizeClass after chunks lastWord tails
  same : SameButBatches cc after
  stock : after.stock sizeClass tails = (batch : Multiset Nat) + cc.stock sizeClass tails

theorem BatchAdded.of_batches {after : CentralCache} {batch : List Nat}
    (inv : CentralInv sizeClass cc chunks lastWord tails)
    (full : batch.length = batchSize sizeClass + 1)
    (same : SameButBatches cc after)
    (perm : (after.batches sizeClass).Perm (batch :: cc.batches sizeClass))
    (store : chunkIsSmall sizeClass = true →
      SmallStore after.chunksBefore after.chunksFrom chunks) :
    BatchAdded sizeClass cc chunks lastWord tails batch after where
  inv := by
    refine inv.of_batches same (fun other member => ?_) store
    rcases List.mem_cons.mp (perm.mem_iff.mp member) with isNew | member
    · rw [isNew, full]
    · exact inv.batches_full other member
  same := same
  stock := by
    refine stock_add_batch same.freeList ?_
    rw [Multiset.coe_add]
    exact Multiset.coe_eq_coe.mpr perm.flatten

theorem addBatchToCentralCache_spec {batch : List Nat} (geometry : Geometry sizeClass)
    (inv : CentralInv sizeClass cc chunks lastWord tails)
    (full : batch.length = batchSize sizeClass + 1)
    (room : HasRoom sizeClass cc chunks) :
    ∃ after, addBatchToCentralCache sizeClass cc batch = some after ∧
      BatchAdded sizeClass cc chunks lastWord tails batch after := by
  unfold addBatchToCentralCache
  cases small : chunkIsSmall sizeClass with
  | false =>
      rw [if_neg Bool.false_ne_true]
      refine ⟨_, rfl, .of_batches inv full ⟨rfl, rfl, rfl, rfl, rfl, rfl⟩ ?_ ?_⟩
      · rw [batches_of_not_small _ small, batches_of_not_small _ small]
      · intro isSmall
        rw [small] at isSmall
        cases isSmall
  | true =>
      rw [if_pos rfl]
      have store := inv.store small
      have enough := room small
      have fewer := geometry.small_blocks small
      have count := store.count
      rw [geometry.small_batch small, batches_of_small _ small] at enough
      cases current : cc.chunksFrom with
      | nil =>
          rw [current, store.null current] at count
          simp only [List.length_nil, Nat.add_zero] at count
          rw [← count] at enough
          omega
      | cons cs after =>
          rw [current] at store enough count
          by_cases isFull : cs.batches.length = numOfBatchesInChunkSm
          · simp only [if_pos isFull]
            cases after with
            | nil =>
                rw [SmallStore.stored_length store.full, isFull] at enough
                rw [List.length_singleton] at count
                have scaled : numBlocksInChunk sizeClass * chunks.length ≤
                    (numOfBatchesInChunkSm * 256 - 1) * chunks.length :=
                  Nat.mul_le_mul_right _ (by omega)
                rw [← count, Nat.sub_mul] at scaled
                rw [← count] at enough
                rw [← Nat.succ_mul] at enough
                have : numOfBatchesInChunkSm = 32 := rfl
                rw [this] at enough scaled
                omega
            | cons next others =>
                have nextEmpty := store.empty next List.mem_cons_self
                simp only [nextEmpty, List.length_nil, if_true]
                refine ⟨_, rfl, .of_batches inv full ⟨rfl, rfl, rfl, rfl, rfl, rfl⟩ ?_
                  fun _ => ⟨?_, ?_, ?_, ?_, fun null => by cases null⟩⟩
                · rw [batches_of_small _ small, batches_of_small _ small, current]
                  simp only [List.flatMap_append, List.flatMap_cons, nextEmpty,
                    List.nil_append]
                  rw [List.singleton_append, List.append_assoc, ← List.append_assoc]
                  refine List.perm_middle.trans (List.Perm.cons _ ?_)
                  rw [← List.append_assoc]
                  exact (List.perm_append_comm).append_right _
                · intro other member
                  rcases List.mem_cons.mp member with isCs | member
                  · rw [isCs, isFull]
                  · exact store.full other member
                · intro head isHead
                  cases isHead
                  rw [List.length_singleton]
                  decide
                · intro other member
                  exact store.empty other (List.mem_cons_of_mem _ member)
                · simp only [List.length_cons] at count ⊢
                  omega
          · simp only [if_neg isFull]
            have fits := store.fits cs rfl
            refine ⟨_, rfl, .of_batches inv full ⟨rfl, rfl, rfl, rfl, rfl, rfl⟩ ?_
              fun _ => ⟨store.full, ?_, store.empty, count, fun null => by cases null⟩⟩
            · rw [batches_of_small _ small, batches_of_small _ small, current]
              simp only [List.flatMap_append, List.flatMap_cons, List.cons_append]
              exact List.perm_middle
            · intro head isHead
              cases isHead
              rw [List.length_cons]
              omega

/-- Flushing `tempList`, when there is one. -/
theorem flushTempList_spec (geometry : Geometry sizeClass)
    (inv : CentralInv sizeClass cc chunks lastWord tails)
    (temp : tc.tempList = [] ∨ tc.tempList.length = batchSize sizeClass + 1)
    (room : tc.tempList ≠ [] → HasRoom sizeClass cc chunks) :
    ∃ after, flushTempList sizeClass tc cc = some after ∧
      BatchAdded sizeClass cc chunks lastWord tails tc.tempList after := by
  unfold flushTempList
  by_cases noTemp : tc.tempList = []
  · rw [if_neg (not_not.mpr noTemp), noTemp]
    exact ⟨cc, rfl, inv, ⟨rfl, rfl, rfl, rfl, rfl, rfl⟩, by simp⟩
  · rw [if_pos noTemp]
    exact addBatchToCentralCache_spec geometry inv (temp.resolve_left noTemp) (room noTemp)

theorem CounterLaw.temp (law : CounterLaw sizeClass tc) :
    tc.tempList = [] ∨ tc.tempList.length = batchSize sizeClass + 1 := by
  rcases law with isInitial | ⟨_, _, temp⟩
  · exact .inl (isInitial ▸ rfl)
  · exact temp

/-- At a zero counter a cache is full or was never used. -/
theorem CounterLaw.full (law : CounterLaw sizeClass tc) (exhausted : tc.counter - 1 < 0) :
    tc.freeList = [] ∨ tc.freeList.length = batchSize sizeClass + 1 := by
  rcases law with isInitial | ⟨counterEq, nonneg, _⟩
  · exact .inl (isInitial ▸ rfl)
  · exact .inr (by omega)

theorem ltfree_spec {block : Nat} (geometry : Geometry sizeClass)
    (inv : CentralInv sizeClass cc chunks lastWord tails)
    (law : CounterLaw sizeClass tc)
    (room : tc.tempList ≠ [] → HasRoom sizeClass cc chunks) :
    ∃ newTc newCc, ltfree sizeClass block tc cc = some (newTc, newCc) ∧
      CounterLaw sizeClass newTc ∧
      CentralInv sizeClass newCc chunks lastWord tails ∧
      newTc.stock + newCc.stock sizeClass tails =
        {block} + (tc.stock + cc.stock sizeClass tails) := by
  unfold ltfree
  by_cases exhausted : tc.counter - 1 < 0
  · obtain ⟨after, result, added⟩ := @flushTempList_spec _ { tc with counter := tc.counter - 1 } _ _ _ _ geometry inv law.temp room
    refine ⟨⟨[block], tc.freeList, batchSize sizeClass⟩, after, ?_, .inr ⟨?_, ?_, ?_⟩,
      added.inv, ?_⟩
    · simp only [if_pos exhausted, moveToCentralCache, result, Option.bind_eq_bind,
        Option.bind_some, Option.pure_def]
    · simp
    · simp
    · exact law.full exhausted
    · rw [added.stock, ThreadCache.stock, ThreadCache.stock, Multiset.coe_singleton]
      abel
  · refine ⟨⟨block :: tc.freeList, tc.tempList, tc.counter - 1⟩, cc, ?_, .inr ⟨?_, ?_, ?_⟩,
      inv, ?_⟩
    · simp only [if_neg exhausted, Option.bind_eq_bind, Option.bind_some, Option.pure_def]
    · rcases law with isInitial | ⟨counterEq, _, _⟩
      · rw [isInitial] at exhausted
        exact absurd (by decide) exhausted
      · simp only [List.length_cons, counterEq]
        omega
    · simp only
      omega
    · exact law.temp
    · simp only [ThreadCache.stock]
      rw [← Multiset.cons_coe, ← Multiset.singleton_add]
      abel

/-! ## Thread exit -/

theorem CentralInv.appendFreeList (inv : CentralInv sizeClass cc chunks lastWord tails)
    (blocks : List Nat) :
    CentralInv sizeClass { cc with
      freeList := blocks ++ cc.freeList
      freeListSize := (cc.freeListSize + blocks.length % 2 ^ 32) % 2 ^ 32 }
      chunks lastWord tails := by
  refine inv.of_freeList rfl ?_
  simp only [List.length_append, inv.freeListSize]
  omega

/-- Appending the loose blocks of a thread. -/
theorem appendFreeList_spec (geometry : Geometry sizeClass)
    (inv : CentralInv sizeClass cc chunks lastWord tails)
    (law : CounterLaw sizeClass tc) :
    ∃ newCc, appendFreeList sizeClass tc cc = some newCc ∧
      CentralInv sizeClass newCc chunks lastWord tails ∧
      newCc.stock sizeClass tails = tc.freeList + cc.stock sizeClass tails := by
  unfold appendFreeList
  by_cases loose : tc.freeList ≠ []
  · have batchLe := geometry.batch_le
    have counterEq : (batchSize sizeClass + 1 - tc.counter) % 2 ^ 32 =
        ((tc.freeList.length % 2 ^ 32 : Nat) : Int) := by
      rcases law with isInitial | ⟨counterEq, _, _⟩
      · exact absurd (isInitial ▸ rfl) loose
      · rw [counterEq]
        omega
    simp only [if_pos loose, if_pos counterEq]
    refine ⟨_, rfl, inv.appendFreeList tc.freeList, ?_⟩
    simp only [CentralCache.stock, CentralCache.batches, ← Multiset.coe_add]
    abel
  · have noLoose : tc.freeList = [] := not_not.mp loose
    rw [if_neg loose, noLoose]
    exact ⟨cc, rfl, inv, by simp⟩

theorem releaseThreadCache_spec (geometry : Geometry sizeClass)
    (inv : CentralInv sizeClass cc chunks lastWord tails)
    (law : CounterLaw sizeClass tc)
    (room : tc.tempList ≠ [] → HasRoom sizeClass cc chunks) :
    ∃ newCc, releaseThreadCache sizeClass tc cc = some newCc ∧
      CentralInv sizeClass newCc chunks lastWord tails ∧
      newCc.stock sizeClass tails = tc.stock + cc.stock sizeClass tails := by
  unfold releaseThreadCache
  by_cases cached : tc.freeList ≠ [] ∨ tc.tempList ≠ []
  · obtain ⟨flushed, flushResult, added⟩ := flushTempList_spec geometry inv law.temp room
    obtain ⟨after, result, newInv, stock⟩ := appendFreeList_spec geometry added.inv law
    rw [if_pos cached, flushResult]
    refine ⟨after, result, newInv, ?_⟩
    rw [stock, added.stock, ThreadCache.stock, add_assoc]
  · rw [not_or, not_not, not_not] at cached
    refine ⟨cc, by simp [cached], inv, ?_⟩
    rw [ThreadCache.stock, cached.1, cached.2]
    simp

end MallocSurvey.Ltalloc
