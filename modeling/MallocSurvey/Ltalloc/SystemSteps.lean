import MallocSurvey.Ltalloc.SystemInvariant

/-! # The events keep the invariant

Every enabled event succeeds and keeps the invariant, apart from those that the
lemmas put a condition on. -/

namespace MallocSurvey.Ltalloc

open Library

variable {threads pageSize : Nat} {state next : State threads} {thread : Fin threads}
  {status : Status} {sizeClass : Nat}

/-! ## Frames -/

@[simp] theorem setStatus_status (state : State threads) (thread : Fin threads)
    (status : Status) : (state.setStatus thread status).status thread = status :=
  Function.update_self _ _ _

/-- The classes after an event of one thread on one class. -/
theorem Inv.classInv_update {cs : ClassState threads} (inv : Inv pageSize state)
    (classes : next.classes = Function.update state.classes sizeClass cs)
    (changed : next.status = Function.update state.status thread status)
    (own : ∃ tails, ClassInv sizeClass cs next.lastWord
      (Function.update (state.fetching sizeClass) thread (status.fetches sizeClass))
      (next.detached sizeClass) tails)
    (views : ∀ other, other ≠ sizeClass → SameView other (state.status thread) status)
    (words : ∀ other, other ≠ sizeClass → ∀ chunk ∈ (state.classes other).chunks,
      next.lastWord (chunk + chunkSize) = state.lastWord (chunk + chunkSize)) :
    ∀ other, Served other → ∃ tails, ClassInv other (next.classes other) next.lastWord
      (next.fetching other) (next.detached other) tails := by
  intro other served
  rw [classes]
  by_cases same : other = sizeClass
  · rw [same, Function.update_self, fetching_update changed]
    exact own
  · obtain ⟨tails, classInv⟩ := inv.classInv other served
    obtain ⟨fetching, detached⟩ := (views other same).same changed
    rw [Function.update_of_ne same, fetching, detached]
    exact ⟨tails, classInv.congr served.geometry (words other same)⟩

/-- The classes after an event that leaves them alone. -/
theorem Inv.classInv_same (inv : Inv pageSize state)
    (classes : next.classes = state.classes)
    (changed : next.status = Function.update state.status thread status)
    (views : ∀ other, SameView other (state.status thread) status)
    (words : ∀ other, ∀ chunk ∈ (state.classes other).chunks,
      next.lastWord (chunk + chunkSize) = state.lastWord (chunk + chunkSize)) :
    ∀ other, Served other → ∃ tails, ClassInv other (next.classes other) next.lastWord
      (next.fetching other) (next.detached other) tails := by
  intro other served
  obtain ⟨tails, classInv⟩ := inv.classInv other served
  obtain ⟨fetching, detached⟩ := (views other).same changed
  rw [classes, fetching, detached]
  exact ⟨tails, classInv.congr served.geometry (words other)⟩

theorem Inv.status_update {lastWord : Nat → Nat} (inv : Inv pageSize state)
    (changed : next.status = Function.update state.status thread status)
    (own : StatusInv pageSize lastWord status)
    (others : ∀ other, other ≠ thread → ∀ sizeClass chunk,
      state.status other = .insertingChunk sizeClass chunk →
      lastWord (chunk + chunkSize) = state.lastWord (chunk + chunkSize)) :
    ∀ other, StatusInv pageSize lastWord (next.status other) := by
  intro other
  rw [changed]
  by_cases same : other = thread
  · rw [same, Function.update_self]
    exact own
  · rw [Function.update_of_ne same]
    have old := inv.status other
    have words := others other same
    revert old words
    generalize state.status other = otherStatus
    intro old words
    cases otherStatus with
    | insertingChunk sizeClass chunk =>
        exact ⟨old.1, old.2.1, (words sizeClass chunk rfl).trans old.2.2⟩
    | _ => exact old

/-- Everything but the classes and the statuses is the same. -/
structure SameMemory (state next : State threads) : Prop where
  headers : next.headers = state.headers
  lastWord : next.lastWord = state.lastWord
  padChunks : next.padChunks = state.padChunks
  registry : next.registry = state.registry
  large : next.large = state.large
  pages : next.pages = state.pages
  mapped : next.mapped = state.mapped

/-- A thread goes on without touching the memory. -/
theorem Inv.proceed (inv : Inv pageSize state)
    (classes : next.classes = state.classes) (memory : SameMemory state next)
    (changed : next.status = Function.update state.status thread status)
    (views : ∀ other, SameView other (state.status thread) status)
    (held : status.held pageSize = (state.status thread).held pageSize)
    (own : StatusInv pageSize state.lastWord status) : Inv pageSize next where
  classInv := inv.classInv_same classes changed views fun _ _ _ => by rw [memory.lastWord]
  unserved := by rw [classes]; exact inv.unserved
  status := by
    rw [memory.lastWord]
    exact inv.status_update changed own fun _ _ _ _ _ => rfl
  headers := by rw [classes, memory.headers]; exact inv.headers
  registry := by rw [memory.registry, memory.large, memory.pages]; exact inv.registry
  large := by rw [memory.large]; exact inv.large
  padChunks := by rw [memory.padChunks]; exact inv.padChunks
  ledger := by
    have heldEq := held_update changed pageSize
    rw [held] at heldEq
    rw [memory.mapped, inv.ledger, State.owned, State.owned, memory.padChunks, memory.large,
      State.pageRegions, State.pageRegions, memory.pages, add_right_cancel heldEq]
    unfold State.classRegions
    rw [classes]
  nodup := by rw [memory.mapped]; exact inv.nodup

/-- A thread moves blocks of one class. -/
theorem Inv.moveBlocks {cs : ClassState threads} (inv : Inv pageSize state)
    (served : Served sizeClass)
    (classes : next.classes = Function.update state.classes sizeClass cs)
    (chunks : cs.chunks = (state.classes sizeClass).chunks)
    (memory : SameMemory state next)
    (changed : next.status = Function.update state.status thread status)
    (views : ∀ other, other ≠ sizeClass → SameView other (state.status thread) status)
    (held : status.held pageSize = (state.status thread).held pageSize)
    (statusInv : StatusInv pageSize state.lastWord status)
    (own : ∃ tails, ClassInv sizeClass cs state.lastWord
      (Function.update (state.fetching sizeClass) thread (status.fetches sizeClass))
      (next.detached sizeClass) tails) : Inv pageSize next where
  classInv := inv.classInv_update classes changed (by rw [memory.lastWord]; exact own) views
    fun _ _ _ _ => by rw [memory.lastWord]
  unserved := by
    intro other notServed
    have different : other ≠ sizeClass := fun equal => notServed (by rwa [equal])
    rw [classes, Function.update_of_ne different]
    exact inv.unserved other notServed
  status := by
    rw [memory.lastWord]
    exact inv.status_update changed statusInv fun _ _ _ _ _ => rfl
  headers := by
    intro other
    rw [classes, memory.headers]
    by_cases same : other = sizeClass
    · rw [same, Function.update_self, chunks]
      exact inv.headers sizeClass
    · rw [Function.update_of_ne same]
      exact inv.headers other
  registry := by rw [memory.registry, memory.large, memory.pages]; exact inv.registry
  large := by rw [memory.large]; exact inv.large
  padChunks := by rw [memory.padChunks]; exact inv.padChunks
  ledger := by
    have heldEq := held_update changed pageSize
    rw [held] at heldEq
    have regionsEq := classRegions_update classes served.geometry.class_lt
    rw [chunks] at regionsEq
    rw [memory.mapped, inv.ledger, State.owned, State.owned, memory.padChunks, memory.large,
      State.pageRegions, State.pageRegions, memory.pages, add_right_cancel heldEq,
      add_right_cancel regionsEq]
  nodup := by rw [memory.mapped]; exact inv.nodup

theorem sameView_of_idle (isIdle : state.status thread = .idle)
    (quiet : ∀ other, status.fetches other = false ∧ status.detachedBlocks other = 0) :
    ∀ other, SameView other (state.status thread) status := by
  intro other
  rw [isIdle]
  exact ⟨(quiet other).1, (quiet other).2⟩

theorem detached_same (changed : next.status = Function.update state.status thread status)
    (same : status.detachedBlocks sizeClass =
      (state.status thread).detachedBlocks sizeClass) :
    next.detached sizeClass = state.detached sizeClass := by
  have updated := detached_update changed sizeClass
  rw [same] at updated
  exact add_right_cancel updated

theorem fetching_of_idle (isIdle : state.status thread = .idle) :
    state.fetching sizeClass thread = false := by
  rw [State.fetching, isIdle]
  rfl

/-! ## Allocation of blocks -/

theorem Inv.mallocBlock (inv : Inv pageSize state) (isIdle : state.status thread = .idle)
    (served : Served sizeClass)
    (serves : TakesFreeList sizeClass ((state.classes sizeClass).caches thread)
        (state.classes sizeClass).central →
      FreeListServes sizeClass (state.classes sizeClass).central) :
    ∃ next, state.mallocBlock thread sizeClass = some next ∧ Inv pageSize next ∧
      (next.status thread = .allocatingChunk sizeClass ∨
        next.status thread = .idle ∧
          next.result thread ∉ (state.classes sizeClass).live ∧
          next.result thread ∈ (next.classes sizeClass).live) := by
  obtain ⟨tails, classInv⟩ := inv.classInv sizeClass served
  rcases classInv.malloc served.geometry (fetching_of_idle isIdle) serves with
    ⟨block, tc, cc, newTails, result, notLive, newInv⟩ | ⟨result, newInv⟩
  · refine ⟨state.fetched thread sizeClass (.block block tc cc),
      by rw [State.mallocBlock, result]; rfl, ?_, .inr ⟨?_, ?_, ?_⟩⟩
    · refine inv.moveBlocks served rfl rfl ⟨rfl, rfl, rfl, rfl, rfl, rfl, rfl⟩ rfl
        (fun other _ => sameView_of_idle isIdle (fun _ => ⟨rfl, rfl⟩) other)
        (by rw [isIdle]) trivial ⟨newTails, ?_⟩
      have detachedEq := @detached_same _ state (state.fetched thread sizeClass (.block block tc cc)) _ _ sizeClass rfl (by rw [isIdle])
      have same := Function.update_eq_self thread (state.fetching sizeClass)
      rw [fetching_of_idle isIdle] at same
      rw [detachedEq, show Status.fetches sizeClass .idle = false from rfl, same]
      exact newInv
    · exact Function.update_self _ _ _
    · simpa [State.fetched, State.finish] using notLive
    · simp [State.fetched, State.finish, State.setStatus, State.setClass]
  · refine ⟨state.fetched thread sizeClass (.needChunk .fetching),
      by rw [State.mallocBlock, result]; rfl, ?_, .inl (Function.update_self _ _ _)⟩
    refine inv.moveBlocks served rfl rfl ⟨rfl, rfl, rfl, rfl, rfl, rfl, rfl⟩ rfl ?_
      (by rw [isIdle]; rfl) served ⟨tails, ?_⟩
    · intro other different
      rw [isIdle]
      exact ⟨beq_false_of_ne different.symm, rfl⟩
    · have detachedEq := @detached_same _ state (state.fetched thread sizeClass (.needChunk .fetching)) _ _ sizeClass rfl (by rw [isIdle]; rfl)
      have fetches : Status.fetches sizeClass (.allocatingChunk sizeClass) = true :=
        beq_self_eq_true _
      rw [detachedEq, fetches]
      exact newInv

/-- The class that serves a request. -/
def requestClass (size : Nat) : Nat := getSizeClass (if size = 0 then 1 else size)

/-- When the request is served from the loose blocks of the central cache, its
`freeListSize` tells how. -/
def ServesRequest (state : State threads) (thread : Fin threads) (size : Nat) : Prop :=
  TakesFreeList (requestClass size)
      ((state.classes (requestClass size)).caches thread)
      (state.classes (requestClass size)).central →
    FreeListServes (requestClass size) (state.classes (requestClass size)).central

theorem Inv.caches_empty (inv : Inv pageSize state) (notServed : ¬ Served sizeClass) :
    ((state.classes sizeClass).caches thread).freeList = [] := by
  rw [inv.unserved sizeClass notServed]
  rfl

/-- A request that no class serves goes to the system, rounded up to whole chunks. -/
theorem Inv.mallocLarge (inv : Inv pageSize state) (isIdle : state.status thread = .idle)
    {size : Nat} (large : maxBlockSize < size) (inRange : size < 2 ^ 64) :
    state.malloc thread size = some (state.setStatus thread
      (.allocatingLarge ((size + (chunkSize - 1)) % 2 ^ 64 / chunkSize * chunkSize))) ∧
    Inv pageSize (state.setStatus thread
      (.allocatingLarge ((size + (chunkSize - 1)) % 2 ^ 64 / chunkSize * chunkSize))) := by
  have notServed := not_served_of_large large inRange
  constructor
  · rw [State.malloc, if_neg, if_neg (by omega)]
    rw [not_or]
    exact ⟨not_not.mpr (inv.caches_empty notServed), fun inTable => by omega⟩
  · exact inv.proceed rfl ⟨rfl, rfl, rfl, rfl, rfl, rfl, rfl⟩ rfl
      (sameView_of_idle isIdle fun _ => ⟨rfl, rfl⟩) (by rw [isIdle]; rfl) (Nat.mul_mod_left _ _)

/-- Other requests are served from the blocks of a class. -/
theorem Inv.malloc_eq (inv : Inv pageSize state) {size : Nat} (small : size ≤ maxBlockSize) :
    state.malloc thread size = state.mallocBlock thread (requestClass size) ∧
      Served (requestClass size) := by
  by_cases isZero : size = 0
  · have isClass : requestClass size = getSizeClass 1 := by rw [requestClass, if_pos isZero]
    have notServed : ¬ Served (getSizeClass 0) := by decide
    have served : Served (getSizeClass 1) := getSizeClass_served (by omega) (by decide)
    refine ⟨?_, isClass ▸ served⟩
    rw [State.malloc, isZero, if_neg]
    · rw [if_pos rfl, ← isClass, ← isZero]
    · rw [not_or]
      exact ⟨not_not.mpr (inv.caches_empty notServed), fun absurd => by omega⟩
  · have isClass : requestClass size = getSizeClass size := by rw [requestClass, if_neg isZero]
    refine ⟨?_, isClass ▸ getSizeClass_served (by omega) small⟩
    rw [State.malloc, if_pos (.inr ⟨by omega, small⟩), ← isClass]

theorem Inv.malloc (inv : Inv pageSize state) (isIdle : state.status thread = .idle)
    {size : Nat} (inRange : size < 2 ^ 64) (serves : ServesRequest state thread size) :
    ∃ next, state.malloc thread size = some next ∧ Inv pageSize next ∧
      (next.status thread = .idle →
        next.result thread ∉ (state.classes (requestClass size)).live ∧
          next.result thread ∈ (next.classes (requestClass size)).live) := by
  by_cases small : size ≤ maxBlockSize
  · obtain ⟨isBlock, served⟩ := @Inv.malloc_eq _ _ _ thread inv _ small
    obtain ⟨next, result, newInv, outcome⟩ := inv.mallocBlock isIdle served serves
    refine ⟨next, isBlock.trans result, newInv, fun nowIdle => ?_⟩
    rcases outcome with waiting | ⟨_, fresh⟩
    · rw [nowIdle] at waiting
      cases waiting
    · exact fresh
  · obtain ⟨result, newInv⟩ := inv.mallocLarge isIdle (by omega) inRange
    refine ⟨_, result, newInv, fun nowIdle => ?_⟩
    rw [setStatus_status] at nowIdle
    cases nowIdle

end MallocSurvey.Ltalloc
