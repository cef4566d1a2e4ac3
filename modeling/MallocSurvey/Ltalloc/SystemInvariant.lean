import MallocSurvey.Ltalloc.SqueezeSteps

/-! # The invariant of the system

Besides the invariants of the classes: what each thread knows where it is, and that
everything mapped is a chunk of one class, held by one thread, on the pad, a large
block in use or a page of trie nodes. -/

namespace MallocSurvey.Ltalloc

open Library

/-! ## What a thread holds -/

namespace Status

/-- The thread has the chunk of this class to come. -/
def fetches (sizeClass : Nat) : Status → Bool
  | .allocatingChunk other | .insertingChunk other _ => other == sizeClass
  | _ => false

/-- The blocks that a squeeze of this class has detached. -/
def detachedBlocks (sizeClass : Nat) : Status → Multiset Nat
  | .detached _ other lists => if other = sizeClass then (lists.blocks : Multiset Nat) else 0
  | _ => 0

end Status

def chunkRegions (chunks : List Nat) : Multiset (Nat × Nat) :=
  (chunks.map fun chunk => (chunk, chunkSize) : List (Nat × Nat))

/-- The regions that only the thread refers to. -/
def Status.held (pageSize : Nat) : Status → Multiset (Nat × Nat)
  | .insertingChunk _ chunk => {(chunk, chunkSize)}
  | .registering block size | .allocatingPage block size | .unmappingLarge block size =>
      {(block, size)}
  | .registeringWithPage block size page => {(block, size)} + {(page, pageSize)}
  | .padding _ _ freeChunks | .unmapping _ _ freeChunks => chunkRegions freeChunks
  | _ => 0

structure IsChunk (chunk : Nat) : Prop where
  aligned : chunk % chunkSize = 0
  nonzero : chunk ≠ 0

structure IsLarge (block size : Nat) : Prop where
  aligned : block % chunkSize = 0
  nonzero : block ≠ 0
  sizeAligned : size % chunkSize = 0
  positive : 0 < size
  inRange : block + size < 2 ^ 64

/-- What holds where a thread is. -/
def StatusInv (pageSize : Nat) (lastWord : Nat → Nat) : Status → Prop
  | .allocatingChunk sizeClass => Served sizeClass
  | .insertingChunk sizeClass chunk =>
      Served sizeClass ∧ IsChunk chunk ∧ lastWord (chunk + chunkSize) = 0
  | .allocatingLarge size => size % chunkSize = 0
  | .registering block size | .allocatingPage block size | .unmappingLarge block size =>
      IsLarge block size
  | .registeringWithPage block size page => IsLarge block size ∧ IsPage pageSize page
  | .squeezing _ sizeClass => chunkIsSmall sizeClass = false
  | .detached _ sizeClass lists => DetachedInv sizeClass lists
  | .padding _ sizeClass freeChunks | .unmapping _ sizeClass freeChunks =>
      chunkIsSmall sizeClass = false ∧ ∀ chunk ∈ freeChunks, IsChunk chunk
  | _ => True

variable {threads : Nat} {pageSize : Nat}

namespace State

variable (state : State threads)

def fetching (sizeClass : Nat) (thread : Fin threads) : Bool :=
  (state.status thread).fetches sizeClass

def detached (sizeClass : Nat) : Multiset Nat :=
  ∑ thread, (state.status thread).detachedBlocks sizeClass

def held (pageSize : Nat) : Multiset (Nat × Nat) :=
  ∑ thread, (state.status thread).held pageSize

@[irreducible] def classRegions : Multiset (Nat × Nat) :=
  ∑ sizeClass ∈ Finset.range numberOfSizeClasses,
    chunkRegions (state.classes sizeClass).chunks

def pageRegions (pageSize : Nat) : Multiset (Nat × Nat) :=
  (state.pages.map fun page => (page, pageSize) : List (Nat × Nat))

/-- The regions that are reachable. -/
def owned (pageSize : Nat) : Multiset (Nat × Nat) :=
  state.classRegions + state.held pageSize + chunkRegions state.padChunks + state.large +
    state.pageRegions pageSize

end State

/-- The trie maps the large blocks in use to their sizes. -/
def RegistryOk (pageSize : Nat) (registry : Registry) (large : Multiset (Nat × Nat))
    (pages : List Nat) : Prop :=
  ∃ contents tree free tails, RegistryInv pageSize registry contents pages tree free tails 0 ∧
    (∀ region ∈ large,
      contents (.ofNat 64 region.1) = some (.ofNat 64 region.2)) ∧
    ∀ key value, contents key = some value → (key.toNat, value.toNat) ∈ large

structure Inv (pageSize : Nat) (state : State threads) : Prop where
  classInv : ∀ sizeClass, Served sizeClass → ∃ tails,
    ClassInv sizeClass (state.classes sizeClass) state.lastWord (state.fetching sizeClass)
      (state.detached sizeClass) tails
  unserved : ∀ sizeClass, ¬ Served sizeClass → state.classes sizeClass = .initial threads
  status : ∀ thread, StatusInv pageSize state.lastWord (state.status thread)
  headers : ∀ sizeClass, ∀ chunk ∈ (state.classes sizeClass).chunks,
    state.headers chunk = sizeClass
  registry : RegistryOk pageSize state.registry state.large state.pages
  large : ∀ region ∈ state.large, IsLarge region.1 region.2
  padChunks : ∀ chunk ∈ state.padChunks, IsChunk chunk
  ledger : state.mapped = state.owned pageSize
  nodup : (state.mapped.map Prod.fst).Nodup

theorem inv_initial (threads pageSize : Nat) (headers lastWord : Nat → Nat)
    (nodes : Word → Option PTrieNode) :
    Inv pageSize (.initial threads headers lastWord nodes) where
  classInv sizeClass _ := by
    refine ⟨[], ?_⟩
    have detached : (State.initial threads headers lastWord nodes).detached sizeClass = 0 :=
      Finset.sum_eq_zero fun _ _ => rfl
    rw [detached]
    exact classInv_initial sizeClass lastWord
  unserved _ _ := rfl
  status _ := trivial
  headers _ _ member := nomatch member
  registry := ⟨_, _, _, _, registryInv_initial nodes, (fun _ member => nomatch member),
    fun _ _ found => nomatch found⟩
  large _ member := absurd member (Multiset.notMem_zero _)
  padChunks _ member := nomatch member
  ledger := by
    have held : (State.initial threads headers lastWord nodes).held pageSize = 0 :=
      Finset.sum_eq_zero fun _ _ => rfl
    have classes : (State.initial threads headers lastWord nodes).classRegions = 0 := by
      unfold State.classRegions
      exact Finset.sum_eq_zero fun _ _ => rfl
    rw [State.owned, held, classes]
    rfl
  nodup := Multiset.nodup_zero

/-! ## Changing a thread -/

section Status

variable {state next : State threads} {thread : Fin threads} {status : Status}

theorem fetching_update (changed : next.status = Function.update state.status thread status)
    (sizeClass : Nat) :
    next.fetching sizeClass =
      Function.update (state.fetching sizeClass) thread (status.fetches sizeClass) := by
  funext other
  rw [State.fetching, changed]
  by_cases same : other = thread
  · rw [same, Function.update_self, Function.update_self]
  · rw [Function.update_of_ne same, Function.update_of_ne same, State.fetching]

theorem detached_update (changed : next.status = Function.update state.status thread status)
    (sizeClass : Nat) :
    next.detached sizeClass + (state.status thread).detachedBlocks sizeClass =
      state.detached sizeClass + status.detachedBlocks sizeClass := by
  rw [State.detached, changed]
  exact total_update state.status (fun _ status => status.detachedBlocks sizeClass)
    (Finset.mem_univ thread) status

theorem held_update (changed : next.status = Function.update state.status thread status)
    (pageSize : Nat) :
    next.held pageSize + (state.status thread).held pageSize =
      state.held pageSize + status.held pageSize := by
  rw [State.held, changed]
  exact total_update state.status (fun _ status => status.held pageSize)
    (Finset.mem_univ thread) status

theorem classRegions_update {sizeClass : Nat} {cs : ClassState threads}
    (changed : next.classes = Function.update state.classes sizeClass cs)
    (inTable : sizeClass < numberOfSizeClasses) :
    next.classRegions + chunkRegions (state.classes sizeClass).chunks =
      state.classRegions + chunkRegions cs.chunks := by
  have inRange : sizeClass ∈ Finset.range numberOfSizeClasses := Finset.mem_range.mpr inTable
  unfold State.classRegions
  rw [changed]
  exact total_update state.classes (fun _ cs => chunkRegions cs.chunks) inRange cs

theorem classRegions_congr (same : next.classes = state.classes) :
    next.classRegions + 0 = state.classRegions + 0 := by
  unfold State.classRegions
  rw [same]

/-- The ledger after changes of its parts that cancel out. -/
theorem ledger_update {classesOld classesNew heldOld heldNew padOld padNew largeOld largeNew
      pagesOld pagesNew mappedOld mappedNew : Multiset (Nat × Nat)}
    (ledger : state.mapped = state.owned pageSize)
    (classes : next.classRegions + classesOld = state.classRegions + classesNew)
    (held : next.held pageSize + heldOld = state.held pageSize + heldNew)
    (pad : chunkRegions next.padChunks + padOld = chunkRegions state.padChunks + padNew)
    (large : next.large + largeOld = state.large + largeNew)
    (pages : next.pageRegions pageSize + pagesOld = state.pageRegions pageSize + pagesNew)
    (mapped : next.mapped + mappedOld = state.mapped + mappedNew)
    (balance : classesNew + heldNew + padNew + largeNew + pagesNew + mappedOld =
      classesOld + heldOld + padOld + largeOld + pagesOld + mappedNew) :
    next.mapped = next.owned pageSize := by
  rw [Multiset.ext]
  intro region
  have count {left right : Multiset (Nat × Nat)} (equal : left = right) :
      left.count region = right.count region := congrArg _ equal
  have ledgerCount := count ledger
  have classesCount := count classes
  have heldCount := count held
  have padCount := count pad
  have largeCount := count large
  have pagesCount := count pages
  have mappedCount := count mapped
  have balanceCount := count balance
  simp only [State.owned, Multiset.count_add] at *
  omega

/-- The thread's share of a class is the same as before. -/
structure SameView (sizeClass : Nat) (before after : Status) : Prop where
  fetches : after.fetches sizeClass = before.fetches sizeClass
  detachedBlocks : after.detachedBlocks sizeClass = before.detachedBlocks sizeClass

theorem SameView.same {sizeClass : Nat} (view : SameView sizeClass (state.status thread) status)
    (changed : next.status = Function.update state.status thread status) :
    next.fetching sizeClass = state.fetching sizeClass ∧
      next.detached sizeClass = state.detached sizeClass := by
  constructor
  · rw [fetching_update changed, view.fetches]
    exact Function.update_eq_self _ _
  · have updated := detached_update changed sizeClass
    rw [view.detachedBlocks] at updated
    exact add_right_cancel updated

end Status

/-! ## Regions apart from each other -/

section Regions

variable {state : State threads}

theorem Inv.bases_ne (inv : Inv pageSize state) {left right : Multiset (Nat × Nat)}
    (le : left + right ≤ state.owned pageSize) {first second : Nat × Nat}
    (inLeft : first ∈ left) (inRight : second ∈ right) : first.1 ≠ second.1 := by
  intro equal
  have nodup := Multiset.nodup_of_le (Multiset.map_le_map (f := Prod.fst)
    (inv.ledger ▸ le)) inv.nodup
  rw [Multiset.map_add] at nodup
  exact Multiset.disjoint_left.mp (Multiset.nodup_add.mp nodup).2.2
    (Multiset.mem_map_of_mem _ inLeft) (equal ▸ Multiset.mem_map_of_mem _ inRight)

theorem mem_chunkRegions {chunks : List Nat} {chunk : Nat} (member : chunk ∈ chunks) :
    (chunk, chunkSize) ∈ chunkRegions chunks := by
  unfold chunkRegions
  exact Multiset.mem_coe.mpr (List.mem_map.mpr ⟨chunk, member, rfl⟩)

theorem class_le_owned {sizeClass : Nat} (inTable : sizeClass < numberOfSizeClasses) :
    chunkRegions (state.classes sizeClass).chunks ≤ state.classRegions := by
  have inRange : sizeClass ∈ Finset.range numberOfSizeClasses := Finset.mem_range.mpr inTable
  unfold State.classRegions
  generalize Finset.range numberOfSizeClasses = table at inRange
  exact share_le_total (fun other => chunkRegions (state.classes other).chunks) inRange

theorem held_le_owned (thread : Fin threads) :
    (state.status thread).held pageSize ≤ state.held pageSize :=
  share_le_total (fun thread => (state.status thread).held pageSize)
    (Finset.mem_univ thread)

theorem Inv.class_inTable (inv : Inv pageSize state) {sizeClass chunk : Nat}
    (member : chunk ∈ (state.classes sizeClass).chunks) :
    Served sizeClass ∧ sizeClass < numberOfSizeClasses := by
  by_cases served : Served sizeClass
  · exact ⟨served, served.geometry.class_lt⟩
  · rw [inv.unserved sizeClass served] at member
    cases member

theorem Inv.chunk_mem (inv : Inv pageSize state) {sizeClass chunk : Nat}
    (member : chunk ∈ (state.classes sizeClass).chunks) :
    (chunk, chunkSize) ∈ state.classRegions :=
  Multiset.mem_of_le (class_le_owned (inv.class_inTable member).2) (mem_chunkRegions member)

/-- A region that a thread holds is not a chunk of a class. -/
theorem Inv.held_ne_class (inv : Inv pageSize state) {thread : Fin threads}
    {region : Nat × Nat} (isHeld : region ∈ (state.status thread).held pageSize)
    {sizeClass chunk : Nat} (member : chunk ∈ (state.classes sizeClass).chunks) :
    chunk ≠ region.1 := by
  have le : state.classRegions + state.held pageSize ≤ state.owned pageSize := by
    simp only [State.owned, add_assoc]
    exact add_le_add_right (Multiset.le_add_right _ _) _
  exact inv.bases_ne le (inv.chunk_mem member)
    (Multiset.mem_of_le (held_le_owned thread) isHeld)

theorem Inv.held_ne_held (inv : Inv pageSize state) {left right : Fin threads}
    (different : left ≠ right) {first second : Nat × Nat}
    (inLeft : first ∈ (state.status left).held pageSize)
    (inRight : second ∈ (state.status right).held pageSize) : first.1 ≠ second.1 := by
  refine inv.bases_ne ?_ inLeft inRight
  refine le_trans (b := state.held pageSize) ?_ ?_
  · rw [State.held, ← Finset.add_sum_erase _ _ (Finset.mem_univ left)]
    exact add_le_add_right (share_le_total (fun thread =>
      (state.status thread).held pageSize)
      (Finset.mem_erase.mpr ⟨different.symm, Finset.mem_univ right⟩)) _
  · rw [State.owned, add_comm state.classRegions]
    simp only [add_assoc]
    exact Multiset.le_add_right _ _

theorem Inv.pad_ne_class (inv : Inv pageSize state) {padChunk : Nat}
    (onPad : padChunk ∈ state.padChunks) {sizeClass chunk : Nat}
    (member : chunk ∈ (state.classes sizeClass).chunks) : chunk ≠ padChunk := by
  have le : state.classRegions + chunkRegions state.padChunks ≤ state.owned pageSize := by
    simp only [State.owned]
    refine le_trans (Multiset.le_add_right _ (state.held pageSize + state.large +
      state.pageRegions pageSize)) (le_of_eq ?_)
    abel
  exact inv.bases_ne le (inv.chunk_mem member) (mem_chunkRegions onPad)

theorem Inv.pad_ne_held (inv : Inv pageSize state) {padChunk : Nat}
    (onPad : padChunk ∈ state.padChunks) {thread : Fin threads} {region : Nat × Nat}
    (isHeld : region ∈ (state.status thread).held pageSize) : region.1 ≠ padChunk := by
  have le : state.held pageSize + chunkRegions state.padChunks ≤ state.owned pageSize := by
    simp only [State.owned]
    refine le_trans (Multiset.le_add_right _ (state.classRegions + state.large +
      state.pageRegions pageSize)) (le_of_eq ?_)
    abel
  exact inv.bases_ne le (Multiset.mem_of_le (held_le_owned thread) isHeld)
    (mem_chunkRegions onPad)

theorem Inv.held_ne_large (inv : Inv pageSize state) {thread : Fin threads}
    {region large : Nat × Nat} (isHeld : region ∈ (state.status thread).held pageSize)
    (isLarge : large ∈ state.large) : region.1 ≠ large.1 := by
  refine inv.bases_ne ?_
    (Multiset.mem_of_le (held_le_owned thread) isHeld) isLarge
  simp only [State.owned]
  refine le_trans (Multiset.le_add_right _ (state.classRegions +
    chunkRegions state.padChunks + state.pageRegions pageSize)) (le_of_eq ?_)
  abel

theorem Inv.held_ne_page (inv : Inv pageSize state) {thread : Fin threads}
    {region : Nat × Nat} {page : Nat}
    (isHeld : region ∈ (state.status thread).held pageSize)
    (isPage : page ∈ state.pages) : region.1 ≠ page := by
  refine @Inv.bases_ne _ _ _ inv _ (state.pageRegions pageSize) ?_ _ (page, pageSize) (Multiset.mem_of_le (held_le_owned thread) isHeld)
    (Multiset.mem_coe.mpr (List.mem_map_of_mem isPage))
  simp only [State.owned]
  refine le_trans (Multiset.le_add_right _ (state.classRegions +
    chunkRegions state.padChunks + state.large)) (le_of_eq ?_)
  abel

/-- A fresh region has a base of its own. -/
theorem IsFresh.base_ne {alignment region size : Nat} {mapped : Multiset (Nat × Nat)}
    (fresh : IsFresh alignment region size mapped) (positive : 0 < size)
    {other : Nat × Nat} (isMapped : other ∈ mapped) (otherPositive : 0 < other.2) :
    other.1 ≠ region := by
  rcases fresh.disjoint other isMapped with before | after <;> omega

end Regions

end MallocSurvey.Ltalloc
