import MallocSurvey.FcMalloc.BlockPlaces

/-! # What `alloc`, `free` and the garbage collector keep

`current` is the rest of the page of the thread, or nothing between two pages. -/

namespace MallocSurvey.FcMalloc.Malloc2

open Library

structure Inv (system : System) (live : List Block) (current : List Nat) : Prop where
  layout : Layout system.header system.pages (current ++ live.map Block.pointer ++ system.freed)
  rest : ∀ c ∈ current, c = system.thread.nextBlock + sizeofHeader ∧
    (system.header system.thread.nextBlock).next = pageSize ∧
    (system.header system.thread.nextBlock).pagePos % sizeofHeader = 0
  enough : ∀ block ∈ live, block.size ≤ (system.headerOf block.pointer).usable
  placed : Placed system.slots fun c => c ∈ system.freed
  binned : ∀ bin position c, system.slots (.cache bin position) = some c →
    (system.headerOf c).calcBinNum = bin
  counters : system.Counters

variable {system : System} {live after : List Block} {current rest : List Nat} {c : Nat}

theorem Inv.nodup (inv : Inv system live current) :
    (current ++ live.map Block.pointer ++ system.freed).Nodup :=
  inv.layout.nodup

theorem Inv.freed_ok (inv : Inv system live current) (member : c ∈ system.freed) :
    BlockOk system.header system.pages c :=
  inv.layout.block c (List.mem_append_right _ member)

/-! ## `free` -/

/-- A block that is in use is freed. -/
theorem Inv.free (inv : Inv system live current) (room : system.RoomFor c)
    (perm : (current ++ live.map Block.pointer).Perm (c :: (rest ++ after.map Block.pointer)))
    (keptRest : ∀ other ∈ rest, other ∈ current) (keptLive : ∀ block ∈ after, block ∈ live) :
    Inv (system.free c) after rest where
  layout := by
    apply inv.layout.perm
    exact (perm.append_right system.freed).trans List.perm_middle.symm
  rest := by
    intro other member
    rw [free_nextBlock]
    exact inv.rest other (keptRest other member)
  enough := fun block member => inv.enough block (keptLive block member)
  placed := by
    have fresh : c ∉ system.freed := by
      intro isFreed
      have inUse : c ∈ current ++ live.map Block.pointer :=
        perm.mem_iff.mpr List.mem_cons_self
      exact (List.nodup_append.mp inv.nodup).2.2 c inUse c isFreed rfl
    exact (inv.placed.put placeFor_empty fresh).congr (free_slots inv.counters room)
      fun other => List.mem_cons
  binned := by
    intro bin position other isOther
    rw [free_slots inv.counters room] at isOther
    by_cases isPlace : Place.cache bin position = system.placeFor c
    · rw [isPlace, Function.update_self] at isOther
      cases isOther
      unfold System.placeFor at isPlace
      split at isPlace
      · cases isPlace
        rfl
      · cases isPlace
    · rw [Function.update_of_ne isPlace] at isOther
      exact inv.binned bin position other isOther
  counters := free_counters inv.counters room

/-! ## `alloc` -/

/-- A cached block is handed out. -/
theorem Inv.takeCached (inv : Inv system live current) {bin size : Nat}
    (nonempty : system.thread.cachePos bin < system.thread.cacheEnd bin)
    (enough : size ≤ (system.headerOf (system.thread.firstCached bin)).usable) :
    Inv (system.takeCached bin).2 (⟨system.thread.firstCached bin, size⟩ :: live) current := by
  have isFirst : system.slots (.cache bin (system.thread.cachePos bin)) =
      some (system.thread.firstCached bin) := ringAt_first nonempty
  have member : system.thread.firstCached bin ∈ system.freed :=
    (inv.placed.held_iff _).mpr ⟨_, isFirst⟩
  refine ⟨?_, inv.rest, ?_, ?_, ?_, ?_⟩
  · apply inv.layout.perm
    have taken := (List.perm_cons_erase member).append_left (current ++ live.map Block.pointer)
    have moved : (current ++ live.map Block.pointer ++ system.thread.firstCached bin ::
        system.freed.erase (system.thread.firstCached bin)).Perm
          (current ++ system.thread.firstCached bin :: live.map Block.pointer ++
            system.freed.erase (system.thread.firstCached bin)) := by
      rw [List.append_assoc, List.append_assoc]
      exact List.perm_middle.append_left current
    exact taken.trans moved
  · intro block isLive
    rcases List.mem_cons.mp isLive with rfl | isLive
    · exact enough
    · exact inv.enough block isLive
  · refine (inv.placed.take isFirst).congr takeCached_slots fun other => ?_
    have nodup := (List.nodup_append.mp inv.nodup).2.1
    exact (List.Nodup.mem_erase_iff nodup).trans and_comm
  · intro other position found isFound
    rw [takeCached_slots] at isFound
    by_cases isPlace : Place.cache other position = .cache bin (system.thread.cachePos bin)
    · rw [isPlace, Function.update_self] at isFound
      cases isFound
    · rw [Function.update_of_ne isPlace] at isFound
      exact inv.binned other position found isFound
  · refine ⟨?_, inv.counters.unread, inv.counters.pass, inv.counters.published,
      inv.counters.garbage⟩
    intro other
    have ordered := inv.counters.cache other
    change Function.update system.thread.cachePos bin (system.thread.cachePos bin + 1) other ≤
        system.thread.cacheEnd other ∧
      system.thread.cacheEnd other ≤
        Function.update system.thread.cachePos bin (system.thread.cachePos bin + 1) other + _
    by_cases same : other = bin
    · subst same
      rw [Function.update_self]
      exact ⟨nonempty, by omega⟩
    · rw [Function.update_of_ne same]
      exact ordered

theorem findCached_spec {thread : ThreadAllocator} {left i found : Nat}
    (result : thread.findCached left i = some found) :
    i ≤ found ∧ found < i + left ∧ thread.cachePos found < thread.cacheEnd found := by
  induction left generalizing i with
  | zero => cases result
  | succ left induction =>
      unfold ThreadAllocator.findCached at result
      split at result
      · next nonempty =>
          cases result
          exact ⟨Nat.le_refl _, by omega, nonempty⟩
      · obtain ⟨above, below, nonempty⟩ := induction result
        exact ⟨by omega, by omega, nonempty⟩

theorem roundUp_spec (size : Nat) :
    size ≤ System.roundUp size ∧ System.roundUp size % 64 = 0 := by
  unfold System.roundUp
  omega

/-- The blocks of the bins above the bin of a size are large enough. -/
theorem usable_of_binNum {header : BlockHeader} {s : Nat} (granular : s % 64 = 0)
    (positive : 0 < s) (above : getBinNum s < header.calcBinNum) : s ≤ header.usable := by
  unfold BlockHeader.calcBinNum BlockHeader.usable getBinNum at *
  have nonempty : header.calcSize ≠ 0 := by
    intro empty
    rw [empty, Nat.log2_zero] at above
    omega
  have below : s < 2 ^ (Nat.log2 s + 1) := Nat.lt_log2_self
  have atLeast : 2 ^ Nat.log2 header.calcSize ≤ header.calcSize := Nat.log2_self_le nonempty
  have power : 2 ^ (Nat.log2 s + 1) ≤ 2 ^ Nat.log2 header.calcSize :=
    Nat.pow_le_pow_right (by decide) (by omega)
  have sixth : 6 ≤ Nat.log2 s := (Nat.le_log2 (Nat.ne_of_gt positive)).mpr (by omega)
  obtain ⟨exponent, isExponent⟩ := Nat.exists_eq_add_of_le sixth
  have multiple : 2 ^ (Nat.log2 s + 1) = 64 * 2 ^ (exponent + 1) := by
    rw [isExponent, Nat.add_assoc, Nat.pow_add]
  unfold sizeofHeader
  omega

/-- The system answers with a page. -/
theorem Inv.allocateBlockPage (inv : Inv system live []) {answer : Nat} (nonzero : answer ≠ 0)
    (answers : Answers system answer) :
    ∃ next, system.allocateBlockPage answer = some next ∧
      Inv next live [answer + sizeofHeader] ∧ next.thread.nextBlock = answer ∧
      next.header answer = ⟨0, 0, pageSize, 0⟩ := by
  have apart := answers.resolve_left nonzero
  have layout := inv.layout.newPage nonzero apart
  rw [List.nil_append] at layout
  have kept : ∀ c ∈ live.map Block.pointer ++ system.freed,
      Function.update system.header answer ⟨0, 0, pageSize, 0⟩ (c - sizeofHeader) =
        system.headerOf c := by
    intro c member
    have width : sizeofHeader = 16 := rfl
    have isPage : Function.update system.header answer ⟨0, 0, pageSize, 0⟩
        (answer + sizeofHeader - sizeofHeader) = ⟨0, 0, pageSize, 0⟩ := by
      rw [Nat.add_sub_cancel, Function.update_self]
    apply Function.update_of_ne
    apply layout.header_ne member (by omega)
    rw [isPage, Nat.add_sub_cancel]
    exact Nat.lt_add_of_pos_right (by decide)
  refine ⟨_, if_neg nonzero, ⟨layout, ?_, ?_, inv.placed, ?_,
    inv.counters.congr rfl rfl rfl rfl rfl⟩, rfl,
    Function.update_self ..⟩
  · intro c member
    rw [List.mem_singleton] at member
    refine ⟨member, ?_⟩
    change (Function.update system.header answer ⟨0, 0, pageSize, 0⟩ answer).next = _ ∧
      (Function.update system.header answer ⟨0, 0, pageSize, 0⟩ answer).pagePos % _ = 0
    rw [Function.update_self]
    exact ⟨rfl, rfl⟩
  · intro block isLive
    have member : block.pointer ∈ live.map Block.pointer ++ system.freed :=
      List.mem_append_left _ (List.mem_map_of_mem isLive)
    change block.size ≤ (Function.update system.header answer _ _).usable
    rw [kept _ member]
    exact inv.enough block isLive
  · intro bin position c isCached
    have member : c ∈ live.map Block.pointer ++ system.freed :=
      List.mem_append_right _ ((inv.placed.held_iff c).mpr ⟨.cache bin position, isCached⟩)
    change (Function.update system.header answer _ _).calcBinNum = bin
    rw [kept _ member]
    exact inv.binned bin position c isCached

/-- A block is cut off the page of the thread. -/
theorem Inv.carve (inv : Inv system live [system.thread.nextBlock + sizeofHeader]) {s size : Nat}
    (granular : s % 64 = 0) (room : ¬ system.Exhausted s) (enough : size ≤ s) :
    (system.carve s).1 = system.thread.nextBlock + sizeofHeader ∧
      Inv (system.carve s).2 (⟨system.thread.nextBlock + sizeofHeader, size⟩ :: live)
        [(system.carve s).2.thread.nextBlock + sizeofHeader] := by
  have width : sizeofHeader = 16 := rfl
  obtain ⟨_, isPageEnd, aligned⟩ := inv.rest _ List.mem_cons_self
  have blocks : sizeofHeader * (1 + s / sizeofHeader) = sizeofHeader + s := by
    unfold sizeofHeader
    omega
  have fits : (system.header system.thread.nextBlock).pagePos + sizeofHeader + s +
      sizeofHeader ≤ pageSize := by
    unfold System.Exhausted at room
    unfold sizeofHeader pageSize at *
    omega
  have isHeader : system.thread.nextBlock + sizeofHeader - sizeofHeader =
      system.thread.nextBlock := Nat.add_sub_cancel ..
  have isNext : (system.carve s).2.thread.nextBlock =
      system.thread.nextBlock + sizeofHeader + s := by
    change system.thread.nextBlock + sizeofHeader * (1 + s / sizeofHeader) = _
    omega
  have different : system.thread.nextBlock ≠
      system.thread.nextBlock + sizeofHeader * (1 + s / sizeofHeader) := by
    omega
  have sameNext : system.thread.nextBlock + sizeofHeader * (1 + s / sizeofHeader) =
      system.thread.nextBlock + sizeofHeader + s := by
    omega
  have first : (system.carve s).2.header system.thread.nextBlock =
      { system.header system.thread.nextBlock with
        next := (system.header system.thread.nextBlock).pagePos + sizeofHeader + s } := by
    unfold System.carve
    dsimp only
    rw [Function.update_self, Function.update_of_ne different]
  have second : (system.carve s).2.header (system.thread.nextBlock + sizeofHeader + s) =
      ⟨(system.header system.thread.nextBlock).pagePos + sizeofHeader + s,
        (system.header system.thread.nextBlock).pagePos, pageSize,
        (system.header system.thread.nextBlock).timestamp⟩ := by
    unfold System.carve
    dsimp only
    rw [← sameNext, Function.update_of_ne different.symm, Function.update_self]
  have others : ∀ place, place ≠ system.thread.nextBlock →
      place ≠ system.thread.nextBlock + sizeofHeader + s →
        (system.carve s).2.header place = system.header place := by
    intro place notFirst notSecond
    unfold System.carve
    dsimp only
    rw [Function.update_of_ne notFirst, Function.update_of_ne (sameNext ▸ notSecond)]
  have layout : Layout (system.carve s).2.header system.pages
      ((system.thread.nextBlock + sizeofHeader + s + sizeofHeader) ::
        (system.thread.nextBlock + sizeofHeader) ::
          (live.map Block.pointer ++ system.freed)) := by
    refine Layout.cut inv.layout ?_ ?_ ?_ ?_
    · rw [isHeader]
      unfold BlockHeader.calcSize
      omega
    · rw [isHeader]
      exact first
    · rw [isHeader, second]
      exact ⟨rfl, isPageEnd.symm⟩
    · rw [isHeader]
      exact others
  have kept : ∀ c ∈ live.map Block.pointer ++ system.freed,
      (system.carve s).2.headerOf c = system.headerOf c := by
    intro c member
    have inPage := inv.layout.block _ List.mem_cons_self
    have positive := inPage.calcSize_bounds.1
    have sized : s + sizeofHeader < (system.header system.thread.nextBlock).calcSize := by
      unfold BlockHeader.calcSize
      omega
    apply others
    · apply inv.layout.header_ne member (by omega)
      rw [isHeader] at positive ⊢
      omega
    · apply inv.layout.header_ne member (by omega)
      rw [isHeader]
      omega
  refine ⟨rfl, ?_, ?_, ?_, inv.placed, ?_,
    inv.counters.congr rfl rfl rfl rfl rfl⟩
  · rw [isNext]
    exact layout
  · intro c member
    rw [List.mem_singleton] at member
    refine ⟨member, ?_⟩
    rw [isNext, second]
    refine ⟨rfl, ?_⟩
    dsimp only
    unfold sizeofHeader at aligned ⊢
    omega
  · intro block isLive
    rcases List.mem_cons.mp isLive with rfl | isLive
    · unfold System.headerOf BlockHeader.usable BlockHeader.calcSize
      rw [isHeader, first]
      dsimp only
      omega
    · rw [kept _ (List.mem_append_left _ (List.mem_map_of_mem isLive))]
      exact inv.enough block isLive
  · intro bin position c isCached
    have member := (inv.placed.held_iff c).mpr ⟨.cache bin position, isCached⟩
    rw [kept c (List.mem_append_right _ member)]
    exact inv.binned bin position c isCached

end MallocSurvey.FcMalloc.Malloc2
