import MallocSurvey.Ltalloc.SystemSteps

/-! # The events of large blocks keep the invariant -/

namespace MallocSurvey.Ltalloc

open Library

variable {threads pageSize : Nat} {state next : State threads} {thread : Fin threads}
  {status : Status} {block size region page : Nat}

/-! ## Regions -/

theorem mem_held {item : Nat × Nat} (member : item ∈ state.held pageSize) :
    ∃ thread, item ∈ (state.status thread).held pageSize := by
  obtain ⟨thread, _, isHeld⟩ := Multiset.mem_sum.mp member
  exact ⟨thread, isHeld⟩

theorem chunkSize_pos : 0 < chunkSize := by decide

theorem chunkRegions_positive {chunks : List Nat} {item : Nat × Nat}
    (member : item ∈ chunkRegions chunks) : 0 < item.2 := by
  obtain ⟨chunk, _, isItem⟩ := List.mem_map.mp (Multiset.mem_coe.mp member)
  rw [← isItem]
  exact chunkSize_pos

theorem StatusInv.held_positive {lastWord : Nat → Nat} (inv : StatusInv pageSize lastWord status)
    (positive : 0 < pageSize) {item : Nat × Nat} (member : item ∈ status.held pageSize) :
    0 < item.2 := by
  cases status with
  | insertingChunk sizeClass chunk =>
      rw [Multiset.mem_singleton.mp member]
      exact chunkSize_pos
  | registering block size =>
      rw [Multiset.mem_singleton.mp member]
      exact IsLarge.positive inv
  | allocatingPage block size =>
      rw [Multiset.mem_singleton.mp member]
      exact IsLarge.positive inv
  | unmappingLarge block size =>
      rw [Multiset.mem_singleton.mp member]
      exact IsLarge.positive inv
  | registeringWithPage block size page =>
      rcases Multiset.mem_add.mp member with isBlock | isPage
      · rw [Multiset.mem_singleton.mp isBlock]
        exact inv.1.positive
      · rw [Multiset.mem_singleton.mp isPage]
        exact positive
  | padding padsz sizeClass freeChunks => exact chunkRegions_positive member
  | unmapping padsz sizeClass freeChunks => exact chunkRegions_positive member
  | _ => exact absurd member (Multiset.notMem_zero _)

theorem mem_classRegions {item : Nat × Nat} (member : item ∈ state.classRegions) :
    ∃ sizeClass, item ∈ chunkRegions (state.classes sizeClass).chunks := by
  unfold State.classRegions at member
  generalize Finset.range numberOfSizeClasses = table at member
  obtain ⟨sizeClass, _, isChunk⟩ := Multiset.mem_sum.mp member
  exact ⟨sizeClass, isChunk⟩

theorem Inv.mapped_positive (inv : Inv pageSize state) (ok : PageSize pageSize)
    {item : Nat × Nat} (member : item ∈ state.mapped) : 0 < item.2 := by
  have positive : 0 < pageSize := by have := ok.two; omega
  rw [inv.ledger, State.owned] at member
  simp only [Multiset.mem_add] at member
  rcases member with (((inClass | isHeld) | onPad) | isLarge) | isPage
  · obtain ⟨sizeClass, isChunk⟩ := mem_classRegions inClass
    exact chunkRegions_positive isChunk
  · obtain ⟨thread, isHeld⟩ := mem_held isHeld
    exact (inv.status thread).held_positive positive isHeld
  · exact chunkRegions_positive onPad
  · exact (inv.large item isLarge).positive
  · obtain ⟨page, _, isItem⟩ := List.mem_map.mp (Multiset.mem_coe.mp isPage)
    rw [← isItem]
    exact positive

/-- The bases stay different when the system maps a region. -/
theorem Inv.nodup_cons (inv : Inv pageSize state) (ok : PageSize pageSize)
    {alignment : Nat} (fresh : IsFresh alignment region size state.mapped) (positive : 0 < size) :
    (((region, size) ::ₘ state.mapped).map Prod.fst).Nodup := by
  rw [Multiset.map_cons, Multiset.nodup_cons]
  refine ⟨?_, inv.nodup⟩
  intro member
  obtain ⟨other, isMapped, isBase⟩ := Multiset.mem_map.mp member
  exact fresh.base_ne positive isMapped (inv.mapped_positive ok isMapped) isBase

/-! ## Events that leave the classes and the pad alone -/

/-- The parts that these events do not touch. -/
structure SameSmall (state next : State threads) : Prop where
  classes : next.classes = state.classes
  headers : next.headers = state.headers
  lastWord : next.lastWord = state.lastWord
  padChunks : next.padChunks = state.padChunks

theorem Inv.largeStep (inv : Inv pageSize state) (same : SameSmall state next)
    (changed : next.status = Function.update state.status thread status)
    (views : ∀ other, SameView other (state.status thread) status)
    (own : StatusInv pageSize state.lastWord status)
    (registry : RegistryOk pageSize next.registry next.large next.pages)
    (large : ∀ item ∈ next.large, IsLarge item.1 item.2)
    {largeOld largeNew pagesOld pagesNew mappedOld mappedNew : Multiset (Nat × Nat)}
    (largeChange : next.large + largeOld = state.large + largeNew)
    (pagesChange : next.pageRegions pageSize + pagesOld = state.pageRegions pageSize + pagesNew)
    (mappedChange : next.mapped + mappedOld = state.mapped + mappedNew)
    (balance : status.held pageSize + largeNew + pagesNew + mappedOld =
      (state.status thread).held pageSize + largeOld + pagesOld + mappedNew)
    (nodup : (next.mapped.map Prod.fst).Nodup) : Inv pageSize next where
  classInv := inv.classInv_same same.classes changed views fun _ _ _ => by rw [same.lastWord]
  unserved := by rw [same.classes]; exact inv.unserved
  status := by
    rw [same.lastWord]
    exact inv.status_update changed own fun _ _ _ _ _ => rfl
  headers := by rw [same.classes, same.headers]; exact inv.headers
  registry := registry
  large := large
  padChunks := by rw [same.padChunks]; exact inv.padChunks
  ledger := by
    have padChange : chunkRegions next.padChunks + 0 = chunkRegions state.padChunks + 0 := by
      rw [same.padChunks]
    refine ledger_update inv.ledger (classRegions_congr same.classes)
      (held_update changed pageSize) padChange largeChange pagesChange mappedChange ?_
    simpa using balance
  nodup := nodup

theorem Inv.allocateLarge (inv : Inv pageSize state) (ok : PageSize pageSize)
    (isStatus : state.status thread = .allocatingLarge size) (positive : 0 < size)
    (fresh : IsFresh chunkSize region size state.mapped) :
    ∃ next, state.allocateLarge thread region = some next ∧ Inv pageSize next ∧
      next.status = Function.update state.status thread (.registering region size) ∧
      next.large = state.large := by
  have statusInv := inv.status thread
  rw [isStatus] at statusInv
  refine ⟨{ state with mapped := (region, size) ::ₘ state.mapped }.setStatus thread
    (.registering region size), by rw [State.allocateLarge, isStatus], ?_, rfl, rfl⟩
  refine @Inv.largeStep _ _ state _ thread (.registering region size) inv
    ⟨rfl, rfl, rfl, rfl⟩ rfl ?_
    ⟨fresh.aligned, fresh.nonzero, statusInv, positive, fresh.inRange⟩ inv.registry inv.large
    0 0 0 0 0 {(region, size)} rfl rfl ?_ ?_ (inv.nodup_cons ok fresh positive)
  · intro other
    rw [isStatus]
    exact ⟨rfl, rfl⟩
  · rw [add_zero, add_comm]
    rfl
  · rw [isStatus]
    simp [Status.held]

/-! ## The registry of the blocks in use -/

theorem IsLarge.toNat_block (isLarge : IsLarge block size) :
    (BitVec.ofNat 64 block).toNat = block := by
  have inRange := isLarge.inRange
  rw [BitVec.toNat_ofNat, Nat.mod_eq_of_lt (by omega)]

theorem IsLarge.toNat_size (isLarge : IsLarge block size) :
    (BitVec.ofNat 64 size).toNat = size := by
  have inRange := isLarge.inRange
  rw [BitVec.toNat_ofNat, Nat.mod_eq_of_lt (by omega)]

theorem IsLarge.isValue (isLarge : IsLarge block size) : Trie.IsValue (BitVec.ofNat 64 size) := by
  have aligned := isLarge.sizeAligned
  have positive := isLarge.positive
  have toNat := isLarge.toNat_size
  constructor
  · rw [BitVec.getLsbD, toNat, Nat.testBit_zero, decide_eq_false_iff_not]
    unfold chunkSize at aligned
    omega
  · intro isZero
    rw [isZero] at toNat
    have zero : (0 : Word).toNat = 0 := rfl
    omega

theorem IsLarge.lowByte (isLarge : IsLarge block size) :
    lowByte (BitVec.ofNat 64 block) = 0 := by
  have aligned := isLarge.aligned
  apply BitVec.eq_of_toNat_eq
  rw [Library.lowByte, BitVec.toNat_and, isLarge.toNat_block]
  have mask : (0xFF#64).toNat = 2 ^ 8 - 1 := rfl
  have zero : (0 : Word).toNat = 0 := rfl
  rw [mask, Nat.and_two_pow_sub_one_eq_mod, zero]
  unfold chunkSize at aligned
  omega

/-- Registering a block whose base no block in use has. -/
theorem contents_insert {large : Multiset (Nat × Nat)}
    (sizes : ∀ item ∈ large, IsLarge item.1 item.2) (isLarge : IsLarge block size)
    (absent : ∀ item ∈ large, item.1 ≠ block) {contents : Word → Option Word}
    (holds : ∀ item ∈ large, contents (.ofNat 64 item.1) = some (.ofNat 64 item.2))
    (only : ∀ key value, contents key = some value → (key.toNat, value.toNat) ∈ large) :
    (∀ item ∈ (block, size) ::ₘ large,
      Function.update contents (.ofNat 64 block) (some (.ofNat 64 size)) (.ofNat 64 item.1) =
        some (.ofNat 64 item.2)) ∧
      ∀ key value,
        Function.update contents (.ofNat 64 block) (some (.ofNat 64 size)) key = some value →
        (key.toNat, value.toNat) ∈ (block, size) ::ₘ large := by
  constructor
  · intro item member
    rcases Multiset.mem_cons.mp member with isNew | isOld
    · rw [isNew]
      exact Function.update_self ..
    · rw [Function.update_of_ne, holds item isOld]
      intro same
      have toNat := congrArg BitVec.toNat same
      rw [(sizes item isOld).toNat_block, isLarge.toNat_block] at toNat
      exact absent item isOld toNat
  · intro key value found
    by_cases same : key = .ofNat 64 block
    · rw [same, Function.update_self] at found
      rw [same, ← Option.some.inj found, isLarge.toNat_block, isLarge.toNat_size]
      exact Multiset.mem_cons_self _ _
    · rw [Function.update_of_ne same] at found
      exact Multiset.mem_cons_of_mem (only key value found)

theorem Inv.block_absent (inv : Inv pageSize state)
    (isHeld : (block, size) ∈ (state.status thread).held pageSize) :
    ∀ item ∈ state.large, item.1 ≠ block :=
  fun _ isLarge => (inv.held_ne_large isHeld isLarge).symm

theorem contents_none {large : Multiset (Nat × Nat)} (isLarge : IsLarge block size)
    (absent : ∀ item ∈ large, item.1 ≠ block) {contents : Word → Option Word}
    (only : ∀ key value, contents key = some value → (key.toNat, value.toNat) ∈ large) :
    contents (.ofNat 64 block) = none := by
  cases found : contents (.ofNat 64 block) with
  | none => rfl
  | some value =>
      have member := only _ _ found
      rw [isLarge.toNat_block] at member
      exact absurd rfl (absent _ member)

/-! ## Events -/

/-- The block of a thread becomes one in use. -/
theorem Inv.registered (inv : Inv pageSize state) (isLarge : IsLarge block size)
    {pageRegions : Multiset (Nat × Nat)} {pages : List Nat} {registry : Registry}
    (holds : (state.status thread).held pageSize = {(block, size)} + pageRegions)
    (quiet : ∀ other, SameView other (state.status thread) .idle)
    (newRegistry : RegistryOk pageSize registry ((block, size) ::ₘ state.large) pages)
    (pagesChange : (pages.map fun page => (page, pageSize) : List (Nat × Nat)) =
      state.pageRegions pageSize + pageRegions) :
    Inv pageSize ({ state with pages := pages }.registered thread block size registry) := by
  refine @Inv.largeStep _ _ state _ thread .idle inv ⟨rfl, rfl, rfl, rfl⟩ rfl quiet trivial
    newRegistry ?_ 0 {(block, size)} 0 pageRegions 0 0 ?_ ?_ rfl ?_ inv.nodup
  · intro item member
    rcases Multiset.mem_cons.mp member with isNew | isOld
    · rw [isNew]
      exact isLarge
    · exact inv.large item isOld
  · rw [add_zero, add_comm]
    rfl
  · rw [add_zero]
    exact pagesChange
  · rw [holds]
    simp [Status.held]

theorem Inv.register (inv : Inv pageSize state) (ok : PageSize pageSize)
    (isStatus : state.status thread = .registering block size) :
    ∃ next, state.register thread pageSize = some next ∧ Inv pageSize next ∧
      (next.status = Function.update state.status thread (.allocatingPage block size) ∧
          next.large = state.large ∨
        next.status = Function.update state.status thread .idle ∧ next.result thread = block ∧
          next.large = (block, size) ::ₘ state.large) := by
  have isLarge : IsLarge block size := by
    have statusInv := inv.status thread
    rwa [isStatus] at statusInv
  have isHeld : (state.status thread).held pageSize = {(block, size)} := by
    rw [isStatus]
    rfl
  have absent := inv.block_absent (isHeld ▸ Multiset.mem_singleton_self (block, size))
  have quiet : ∀ status : Status, (∀ other, status.fetches other = false ∧
      status.detachedBlocks other = 0) → ∀ other, SameView other (state.status thread) status := by
    intro status isQuiet other
    rw [isStatus]
    exact ⟨(isQuiet other).1, (isQuiet other).2⟩
  obtain ⟨contents, tree, free, tails, registryInv, holds, only⟩ := inv.registry
  rcases registryInv.register_spec ok isLarge.lowByte isLarge.isValue
    (contents_none isLarge absent only) with needPage | ⟨after, newTree, newFree, newTails, result,
      newInv⟩
  · refine ⟨state.setStatus thread (.allocatingPage block size), ?_, ?_,
      .inl ⟨rfl, rfl⟩⟩
    · simp only [State.register, isStatus, needPage, Option.bind_eq_bind, Option.bind_some,
        Option.pure_def]
    · exact inv.proceed rfl ⟨rfl, rfl, rfl, rfl, rfl, rfl, rfl⟩ rfl
        (quiet _ fun _ => ⟨rfl, rfl⟩) (by rw [isHeld]; rfl) isLarge
  · refine ⟨state.registered thread block size after, ?_, ?_,
      .inr ⟨rfl, Function.update_self .., rfl⟩⟩
    · simp only [State.register, isStatus, result, Option.bind_eq_bind, Option.bind_some,
        Option.pure_def]
    · have newContents := contents_insert inv.large isLarge absent holds only
      refine @Inv.registered _ _ _ _ _ _ inv isLarge 0 _ _ (by rw [isHeld, add_zero])
        (quiet _ fun _ => ⟨rfl, rfl⟩)
        ⟨_, newTree, newFree, newTails, newInv, newContents.1, newContents.2⟩ ?_
      rw [add_zero]
      rfl

theorem Inv.allocatePage (inv : Inv pageSize state) (ok : PageSize pageSize)
    (isStatus : state.status thread = .allocatingPage block size)
    (fresh : IsFresh pageSize region pageSize state.mapped) :
    ∃ next, state.allocatePage thread pageSize region = some next ∧ Inv pageSize next ∧
      next.status = Function.update state.status thread (.registeringWithPage block size region) ∧
      next.large = state.large := by
  have positive : 0 < pageSize := by have := ok.two; omega
  have statusInv := inv.status thread
  rw [isStatus] at statusInv
  refine ⟨{ state with mapped := (region, pageSize) ::ₘ state.mapped }.setStatus thread
    (.registeringWithPage block size region), by rw [State.allocatePage, isStatus], ?_, rfl, rfl⟩
  refine @Inv.largeStep _ _ state _ thread (.registeringWithPage block size region) inv
    ⟨rfl, rfl, rfl, rfl⟩ rfl ?_ ⟨statusInv, fresh.aligned, fresh.nonzero, fresh.inRange⟩
    inv.registry inv.large 0 0 0 0 0 {(region, pageSize)} rfl rfl ?_ ?_
    (inv.nodup_cons ok fresh positive)
  · intro other
    rw [isStatus]
    exact ⟨rfl, rfl⟩
  · rw [add_zero, add_comm]
    rfl
  · rw [isStatus]
    simp [Status.held]

theorem Inv.registerWithPage (inv : Inv pageSize state) (ok : PageSize pageSize)
    (isStatus : state.status thread = .registeringWithPage block size page) :
    ∃ next, state.registerWithPage thread pageSize = some next ∧ Inv pageSize next ∧
      next.status = Function.update state.status thread .idle ∧ next.result thread = block ∧
        next.large = (block, size) ::ₘ state.large := by
  obtain ⟨isLarge, isPage⟩ : IsLarge block size ∧ IsPage pageSize page := by
    have statusInv := inv.status thread
    rwa [isStatus] at statusInv
  have isHeld : (state.status thread).held pageSize = {(block, size)} + {(page, pageSize)} := by
    rw [isStatus]
    rfl
  have absent := @Inv.block_absent _ _ _ thread block size inv (by
    rw [isHeld]
    simp)
  have fresh : page ∉ state.pages := by
    intro member
    have pageHeld : (page, pageSize) ∈ (state.status thread).held pageSize := by
      rw [isHeld]
      simp
    exact inv.held_ne_page pageHeld member rfl
  obtain ⟨contents, tree, free, tails, registryInv, holds, only⟩ := inv.registry
  obtain ⟨after, newTree, newTails, result, newInv⟩ := registryInv.registerWithPage_spec ok isPage
    fresh isLarge.lowByte isLarge.isValue (contents_none isLarge absent only)
  have newContents := contents_insert inv.large isLarge absent holds only
  refine ⟨{ state with pages := page :: state.pages }.registered thread block size after, ?_, ?_,
    rfl, Function.update_self .., rfl⟩
  · simp only [State.registerWithPage, isStatus, result, Option.bind_eq_bind, Option.bind_some,
      Option.pure_def]
  · refine inv.registered isLarge isHeld ?_
      ⟨_, newTree, free, newTails, newInv, newContents.1, newContents.2⟩ ?_
    · intro other
      rw [isStatus]
      exact ⟨rfl, rfl⟩
    · rw [List.map_cons, add_comm, Multiset.singleton_add, State.pageRegions]
      rfl

/-- Blocks in use have bases of their own. -/
theorem Inv.large_nodup (inv : Inv pageSize state) : (state.large.map Prod.fst).Nodup := by
  have le : state.large ≤ state.owned pageSize := by
    rw [State.owned]
    refine le_trans (Multiset.le_add_right _ (state.classRegions + state.held pageSize +
      chunkRegions state.padChunks + state.pageRegions pageSize)) (le_of_eq ?_)
    abel
  exact Multiset.nodup_of_le (Multiset.map_le_map (inv.ledger ▸ le)) inv.nodup

theorem Inv.freeLarge (inv : Inv pageSize state) (ok : PageSize pageSize)
    (isIdle : state.status thread = .idle) (member : (block, size) ∈ state.large) :
    ∃ next, state.free thread block = some next ∧ Inv pageSize next ∧
      next.status = Function.update state.status thread (.unmappingLarge block size) ∧
        next.large = state.large.erase (block, size) := by
  have isLarge : IsLarge block size := inv.large _ member
  obtain ⟨contents, tree, free, tails, registryInv, holds, only⟩ := inv.registry
  obtain ⟨after, newTree, newFree, result, newInv⟩ :=
    registryInv.unregister_spec ok (holds _ member)
  have bases := inv.large_nodup
  rw [← Multiset.cons_erase member, Multiset.map_cons, Multiset.nodup_cons] at bases
  refine ⟨{ state with
      registry := after
      large := state.large.erase (block, size) }.setStatus thread (.unmappingLarge block size), ?_,
    ?_, rfl, rfl⟩
  · rw [State.free, if_neg (not_not.mpr isLarge.aligned), if_neg isLarge.nonzero]
    simp only [result, Option.bind_eq_bind, Option.bind_some, Option.pure_def, isLarge.toNat_size]
  · refine @Inv.largeStep _ _ state _ thread (.unmappingLarge block size) inv ⟨rfl, rfl, rfl, rfl⟩
      rfl (sameView_of_idle isIdle fun _ => ⟨rfl, rfl⟩) isLarge
      ⟨_, newTree, newFree, tails, newInv, ?_, ?_⟩ ?_ {(block, size)} 0 0 0 0 0 ?_ rfl rfl ?_
      inv.nodup
    · intro item isOther
      have different : item.1 ≠ block := by
        intro same
        have isBase := Multiset.mem_map_of_mem Prod.fst isOther
        rw [same] at isBase
        exact bases.1 isBase
      have isOld := Multiset.mem_of_mem_erase isOther
      rw [Function.update_of_ne, holds item isOld]
      intro same
      have toNat := congrArg BitVec.toNat same
      rw [(inv.large item isOld).toNat_block, isLarge.toNat_block] at toNat
      exact different toNat
    · intro key value found
      have different : key ≠ .ofNat 64 block := by
        intro same
        rw [same, Function.update_self] at found
        cases found
      rw [Function.update_of_ne different] at found
      refine (Multiset.mem_erase_of_ne ?_).mpr (only key value found)
      intro same
      apply different
      apply BitVec.eq_of_toNat_eq
      rw [isLarge.toNat_block]
      exact congrArg Prod.fst same
    · exact fun item isOther => inv.large item (Multiset.mem_of_mem_erase isOther)
    · have restored := Multiset.cons_erase member
      rw [← Multiset.singleton_add, add_comm] at restored
      rw [add_zero]
      exact restored
    · rw [isIdle]
      simp [Status.held]

theorem Inv.unmapLarge (inv : Inv pageSize state)
    (isStatus : state.status thread = .unmappingLarge block size) :
    (block, size) ∈ state.mapped ∧
      ∃ next, state.unmapLarge thread = some next ∧ Inv pageSize next ∧
        next.status = Function.update state.status thread .idle ∧ next.large = state.large ∧
        next.mapped = state.mapped.erase (block, size) := by
  have isHeld : (state.status thread).held pageSize = {(block, size)} := by
    rw [isStatus]
    rfl
  have isMapped : (block, size) ∈ state.mapped := by
    have inHeld : (block, size) ∈ state.held pageSize :=
      Multiset.mem_of_le (held_le_owned thread) (isHeld ▸ Multiset.mem_singleton_self _)
    rw [inv.ledger, State.owned]
    simp [inHeld]
  refine ⟨isMapped, { state with mapped := state.mapped.erase (block, size) }.setStatus thread
    .idle, by rw [State.unmapLarge, isStatus], ?_, rfl, rfl, rfl⟩
  refine @Inv.largeStep _ _ state _ thread .idle inv ⟨rfl, rfl, rfl, rfl⟩ rfl ?_ trivial
    inv.registry inv.large 0 0 0 0 {(block, size)} 0 rfl rfl ?_ ?_ ?_
  · intro other
    rw [isStatus]
    exact ⟨rfl, rfl⟩
  · have restored := Multiset.cons_erase isMapped
    rw [← Multiset.singleton_add, add_comm] at restored
    rw [add_zero]
    exact restored
  · rw [isHeld]
    simp [Status.held]
  · exact Multiset.nodup_of_le (Multiset.map_le_map (Multiset.erase_le _ _)) inv.nodup

theorem Inv.largeFails (inv : Inv pageSize state)
    (isStatus : state.status thread = .allocatingLarge size) :
    Inv pageSize (state.finish thread 0) := by
  refine inv.proceed rfl ⟨rfl, rfl, rfl, rfl, rfl, rfl, rfl⟩ rfl ?_ (by rw [isStatus]; rfl) trivial
  intro other
  rw [isStatus]
  exact ⟨rfl, rfl⟩

end MallocSurvey.Ltalloc
