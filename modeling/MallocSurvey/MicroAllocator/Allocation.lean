import MallocSurvey.MicroAllocator.Steps

/-! # The search for a chunk with a free block -/

namespace MallocSurvey.MicroAllocator

open Library

variable {fixedSize : Nat} {state next : MyMicroAllocator} {live : List Block}
  {name : ChunkName} {allocator : Fin maxAllocators} {size mcc answer ret : Nat}

/-- A block of some chunk has become live. -/
structure Served (fixedSize : Nat) (state : MyMicroAllocator) (live : List Block) (size : Nat)
    (allocator : Fin maxAllocators) (name : ChunkName) (ret : Nat) (next : MyMicroAllocator) :
    Prop where
  nonzero : ret ≠ 0
  inv : Inv fixedSize next (⟨ret, size, allocator, name⟩ :: live)
  retains : Retains state next
  chunkChunks : next.chunkChunks = state.chunkChunks
  current : next.current = state.current

/-- What the attempts to allocate from chunks lead to. -/
inductive Tried (fixedSize : Nat) (state : MyMicroAllocator) (live : List Block) (size : Nat)
    (allocator : Fin maxAllocators) (answer : Nat) :
    Option (Nat × ChunkName × MyMicroAllocator) → Prop
  | failed : answer = 0 → Tried fixedSize state live size allocator answer none
  | full {name : ChunkName} :
      Tried fixedSize state live size allocator answer (some (0, name, state))
  | served {ret : Nat} {name : ChunkName} {next : MyMicroAllocator} :
      name.chunkChunk ∈ state.chunkChunks allocator →
      Served fixedSize state live size allocator name ret next →
      Tried fixedSize state live size allocator answer (some (ret, name, next))

/-- The conditions of a call of `malloc`. -/
structure Asked (fixedSize : Nat) (state : MyMicroAllocator) (live : List Block) (size : Nat)
    (allocator : Fin maxAllocators) (answer : Nat) : Prop where
  inv : Inv fixedSize state live
  ready : Ready fixedSize state
  isAllocator : fixedAllocator size = some allocator
  answers : AnswersData state (blockSize allocator * (fixedSize / blockSize allocator)) answer

namespace Asked

theorem allocateChunk_spec (asked : Asked fixedSize state live size allocator answer)
    (member : name.chunkChunk ∈ state.chunkChunks allocator) :
    (state.allocateChunk name (blockSize allocator) (fixedSize / blockSize allocator) answer =
        none ∧ answer = 0) ∨
    (state.allocateChunk name (blockSize allocator) (fixedSize / blockSize allocator) answer =
        some (0, state) ∧ (state.chunk name).data ≠ 0) ∨
    ∃ ret next, state.allocateChunk name (blockSize allocator)
        (fixedSize / blockSize allocator) answer = some (ret, next) ∧
      Served fixedSize state live size allocator name ret next := by
  have fetched := asked.inv.fetchChunk_spec asked.ready member asked.answers
  unfold MyMicroAllocator.allocateChunk
  generalize state.fetchChunk name (blockSize allocator) (fixedSize / blockSize allocator)
    answer = result at fetched
  cases fetched with
  | failed refused => exact .inl ⟨rfl, refused⟩
  | present data =>
      by_cases full : (state.chunk name).freeList = 0
      · refine .inr (.inl ⟨?_, data⟩)
        simp only [Option.bind_eq_bind, Option.bind_some, MyMicroAllocator.takeBlock, if_pos full,
          pure]
      · obtain ⟨inv, nonzero, retains, chunkChunks, current⟩ :=
          asked.inv.takeBlock_spec member full asked.isAllocator
        exact .inr (.inr ⟨_, _, rfl, nonzero, inv, retains, chunkChunks, current⟩)
  | @filled filled filledInv fillRetains sameChunks sameCurrent some_free =>
      obtain ⟨inv, nonzero, retains, chunkChunks, current⟩ :=
        filledInv.takeBlock_spec (sameChunks ▸ member) some_free asked.isAllocator
      refine .inr (.inr ⟨_, _, rfl, nonzero, inv, ?_, chunkChunks.trans sameChunks,
        current.trans sameCurrent⟩)
      intro other data
      have same := fillRetains other data
      exact (retains other (same ▸ data)).trans same

theorem scanChunks_spec (asked : Asked fixedSize state live size allocator answer)
    {chunkChunk : ChunkChunk} (member : chunkChunk ∈ state.chunkChunks allocator)
    (indices : List (Fin defaultChunks)) :
    Tried fixedSize state live size allocator answer
      (MyMicroAllocator.scanChunks (blockSize allocator) (fixedSize / blockSize allocator) answer
        chunkChunk indices state) := by
  induction indices with
  | nil => exact .full
  | cons index rest induction =>
      unfold MyMicroAllocator.scanChunks
      rcases @allocateChunk_spec fixedSize state live ⟨chunkChunk, index⟩ allocator size answer
        asked member with ⟨result, refused⟩ | ⟨result, _⟩ | ⟨ret, next, result, served⟩
      · rw [result]
        exact .failed refused
      · rw [result]
        exact induction
      · rw [result]
        simp only [Option.bind_eq_bind, Option.bind_some, if_pos served.nonzero]
        exact .served member served

theorem scan_spec (asked : Asked fixedSize state live size allocator answer)
    {chunkChunks : List ChunkChunk} (current : ChunkName)
    (members : ∀ chunkChunk ∈ chunkChunks, chunkChunk ∈ state.chunkChunks allocator) :
    Tried fixedSize state live size allocator answer
      (MyMicroAllocator.scan (blockSize allocator) (fixedSize / blockSize allocator) answer
        chunkChunks current state) := by
  induction chunkChunks with
  | nil => exact .full
  | cons chunkChunk rest induction =>
      have scanned := asked.scanChunks_spec (members chunkChunk List.mem_cons_self)
        (List.finRange defaultChunks)
      unfold MyMicroAllocator.scan
      generalize MyMicroAllocator.scanChunks (blockSize allocator)
        (fixedSize / blockSize allocator) answer chunkChunk (List.finRange defaultChunks) state =
          result at scanned
      cases scanned with
      | failed refused => exact .failed refused
      | full => exact induction fun other isRest => members other (List.mem_cons_of_mem _ isRest)
      | served member served =>
          simp only [Option.bind_eq_bind, Option.bind_some, if_pos served.nonzero]
          exact .served member served

end Asked

/-! ## A new chunk chunk -/

theorem Inv.newChunkChunk (inv : Inv fixedSize state live)
    (fresh : AnswersChunkChunk state mcc) :
    Inv fixedSize (state.newChunkChunk allocator mcc) live ∧
      (state.newChunkChunk allocator mcc).chunk = state.chunk ∧
      ∀ other chunkChunk, chunkChunk ∈ (state.newChunkChunk allocator mcc).chunkChunks other ↔
        chunkChunk ∈ state.chunkChunks other ∨ other = allocator ∧ chunkChunk = .fromHeap mcc := by
  have sameChunk : (state.newChunkChunk allocator mcc).chunk = state.chunk := by
    funext name
    change (if name.chunkChunk = .fromHeap mcc then MemoryChunk.new else state.chunk name) = _
    by_cases isNew : name.chunkChunk = .fromHeap mcc
    · rw [if_pos isNew, inv.others name (isNew ▸ fresh)]
    · rw [if_neg isNew]
  have members : ∀ other chunkChunk,
      chunkChunk ∈ (state.newChunkChunk allocator mcc).chunkChunks other ↔
        chunkChunk ∈ state.chunkChunks other ∨
          other = allocator ∧ chunkChunk = .fromHeap mcc := by
    intro other chunkChunk
    change chunkChunk ∈ Function.update state.chunkChunks allocator _ other ↔ _
    by_cases same : other = allocator
    · subst same
      obtain ⟨rest, isList⟩ := inv.inside other
      rw [Function.update_self, isList]
      simp only [List.take_succ_cons, List.take_zero, List.drop_succ_cons, List.drop_zero,
        List.singleton_append, List.mem_cons, true_and]
      tauto
    · rw [Function.update_of_ne same]
      simp [same]
  refine ⟨⟨?_, ?_, ?_, ?_, ?_, ?_, ?_, ?_⟩, sameChunk, members⟩
  · intro other name member
    rw [sameChunk]
    rcases (members other name.chunkChunk).mp member with old | ⟨_, isNew⟩
    · exact inv.chunks other name old
    · rw [inv.others name (isNew ▸ fresh)]
      refine .inl ⟨rfl, rfl, rfl, rfl, ?_⟩
      unfold liveOf
      rw [List.map_eq_nil_iff, List.filter_eq_nil_iff]
      intro block isLive isName
      have isChunk := (inv.live block isLive).2
      rw [of_decide_eq_true isName, isNew] at isChunk
      exact fresh _ isChunk
  · intro name outside
    rw [sameChunk]
    exact inv.others name fun owner member => outside owner ((members _ _).mpr (.inl member))
  · rw [sameChunk]
    exact inv.apart
  · intro left right chunkChunk inLeft inRight
    rcases (members _ _).mp inLeft with oldLeft | ⟨isLeft, isNew⟩
    · rcases (members _ _).mp inRight with oldRight | ⟨_, isNew⟩
      · exact inv.owner left right chunkChunk oldLeft oldRight
      · exact absurd oldLeft (isNew ▸ fresh left)
    · rcases (members _ _).mp inRight with oldRight | ⟨isRight, _⟩
      · exact absurd oldRight (isNew ▸ fresh right)
      · rw [isLeft, isRight]
  · intro other
    obtain ⟨rest, isList⟩ := inv.inside other
    change ∃ rest, Function.update state.chunkChunks allocator _ other = _
    by_cases same : other = allocator
    · subst same
      rw [Function.update_self, isList]
      exact ⟨_, rfl⟩
    · rw [Function.update_of_ne same]
      exact ⟨rest, isList⟩
  · intro other
    exact (members _ _).mpr (.inl (inv.current other))
  · intro block isLive
    exact ⟨(inv.live block isLive).1, (members _ _).mpr (.inl (inv.live block isLive).2)⟩
  · rw [sameChunk]
    exact inv.heap

/-! ## `malloc` -/

/-- What `malloc` leads to. -/
inductive Outcome (fixedSize : Nat) (state : MyMicroAllocator) (live : List Block) (size : Nat)
    (allocator : Fin maxAllocators) (mcc answer : Nat) : Option (Nat × MyMicroAllocator) → Prop
  | failed : answer = 0 ∨ mcc = 0 →
      Outcome fixedSize state live size allocator mcc answer none
  | served {ret : Nat} {next : MyMicroAllocator} : ret ≠ 0 →
      Inv fixedSize next (⟨ret, size, allocator, next.current allocator⟩ :: live) →
      Retains state next → Outcome fixedSize state live size allocator mcc answer (some (ret, next))

/-- The current chunk may be any chunk of the allocator. -/
theorem Inv.setCurrent (inv : Inv fixedSize state live)
    (member : name.chunkChunk ∈ state.chunkChunks allocator) :
    Inv fixedSize { state with current := Function.update state.current allocator name } live :=
  { inv with
    chunks := inv.chunks
    others := inv.others
    apart := inv.apart
    live := inv.live
    heap := inv.heap
    current := by
      intro other
      change (Function.update state.current allocator name other).chunkChunk ∈ _
      by_cases same : other = allocator
      · subst same
        rw [Function.update_self]
        exact member
      · rw [Function.update_of_ne same]
        exact inv.current other }

theorem Served.outcome (served : Served fixedSize state live size allocator name ret next)
    (member : name.chunkChunk ∈ state.chunkChunks allocator) :
    Outcome fixedSize state live size allocator mcc answer
      (some (ret, { next with current := Function.update next.current allocator name })) := by
  refine .served served.nonzero ?_ served.retains
  have inv := served.inv.setCurrent (served.chunkChunks ▸ member)
  change Inv fixedSize _ (⟨ret, size, allocator,
    Function.update next.current allocator name allocator⟩ :: live)
  rw [Function.update_self]
  exact inv

theorem Asked.allocateFrom_spec (asked : Asked fixedSize state live size allocator answer)
    (fresh : AnswersChunkChunk state mcc) :
    Outcome fixedSize state live size allocator mcc answer
      (state.allocateFrom allocator (blockSize allocator) (fixedSize / blockSize allocator) mcc
        answer) := by
  have scanned := asked.scan_spec (state.current allocator)
    (fun chunkChunk (member : chunkChunk ∈ state.chunkChunks allocator) => member)
  unfold MyMicroAllocator.allocateFrom
  generalize MyMicroAllocator.scan (blockSize allocator) (fixedSize / blockSize allocator) answer
    (state.chunkChunks allocator) (state.current allocator) state = result at scanned
  cases scanned with
  | failed refused => exact .failed (.inl refused)
  | served member served =>
      simp only [Option.bind_eq_bind, Option.bind_some, if_pos served.nonzero]
      exact served.outcome member
  | full =>
      simp only [Option.bind_eq_bind, Option.bind_some, if_neg (not_not.mpr (rfl : 0 = 0))]
      by_cases refused : mcc = 0
      · rw [if_pos refused]
        exact .failed (.inr refused)
      · rw [if_neg refused]
        obtain ⟨newInv, sameChunk, members⟩ := @Inv.newChunkChunk fixedSize state live allocator
          mcc asked.inv fresh
        have member : ChunkChunk.fromHeap mcc ∈
            (state.newChunkChunk allocator mcc).chunkChunks allocator :=
          (members _ _).mpr (.inr ⟨rfl, rfl⟩)
        have newAsked : Asked fixedSize (state.newChunkChunk allocator mcc) live size allocator
            answer := by
          refine ⟨newInv, ⟨?_, asked.ready.room⟩, asked.isAllocator, ?_⟩
          · rw [sameChunk]
            exact asked.ready.primary
          · unfold AnswersData
            rw [sameChunk]
            exact asked.answers
        rcases @allocateChunk_spec fixedSize _ live ⟨.fromHeap mcc, 0⟩ allocator size answer
          newAsked member with ⟨result, noAnswer⟩ | ⟨_, data⟩ | ⟨ret, next, result, served⟩
        · rw [result]
          exact .failed (.inl noAnswer)
        · rw [sameChunk, asked.inv.others ⟨.fromHeap mcc, 0⟩ fresh] at data
          exact absurd rfl data
        · rw [result]
          have outcome := @Served.outcome fixedSize _ next live _ allocator size mcc answer ret
            served member
          cases outcome with
          | served nonzero nextInv retains =>
              refine .served nonzero nextInv ?_
              intro other data
              rw [← sameChunk] at data ⊢
              exact retains other data

theorem Asked.malloc_spec (asked : Asked fixedSize state live size allocator answer)
    (fresh : AnswersChunkChunk state mcc) :
    Outcome fixedSize state live size allocator mcc answer
      (state.malloc fixedSize size mcc answer) := by
  have small : size ≤ maxAllocationSize :=
    Nat.le_trans (fixedAllocator_size asked.isAllocator) (blockSize_le allocator)
  unfold MyMicroAllocator.malloc MyMicroAllocator.allocateFixed
  rw [if_pos small, asked.isAllocator]
  simp only [Option.bind_eq_bind, Option.bind_some]
  have member := asked.inv.current allocator
  rcases asked.allocateChunk_spec member with ⟨result, refused⟩ | ⟨result, _⟩ |
    ⟨ret, next, result, served⟩
  · rw [result]
    exact .failed (.inl refused)
  · rw [result]
    exact asked.allocateFrom_spec fresh
  · rw [result]
    simp only [Option.bind_some, if_neg served.nonzero]
    refine .served served.nonzero ?_ served.retains
    rw [served.current]
    exact served.inv

end MallocSurvey.MicroAllocator
