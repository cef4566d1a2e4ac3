import MallocSurvey.Gjalloc.LogSteps

/-! # What a `ba_log` keeps over every run -/

namespace MallocSurvey.Gjalloc

open Library

/-- Blocks in use are distinct blocks of the pages, the current page has a free block, the
counters are exact, and the pages of blocks are found. -/
structure LogKept (blockSize first : Nat) (state : LogState) : Prop where
  block : ∀ ptr ∈ state.live, ∃ k ≤ state.log.size, ∃ n < first * 2 ^ k,
    ptr = state.log.pages k + logPageSize + n * blockSize
  distinct : state.live.Nodup
  apart : ∀ i ≤ state.log.size, ∀ j ≤ state.log.size, i ≠ j →
    Library.Apart (state.log.pages i) (logPageBytes blockSize (first * 2 ^ i)) (state.log.pages j)
      (logPageBytes blockSize (first * 2 ^ j))
  current : ∃ n < first * 2 ^ state.log.size,
    (state.log.header (state.log.pages state.log.size)).first =
      state.log.pages state.log.size + logPageSize + n * blockSize ∧
    (state.log.header (state.log.pages state.log.size)).first ∉ state.live
  used : ∀ k ≤ state.log.size, (state.log.header (state.log.pages k)).used =
    (state.live.filter fun ptr => state.log.pages k ≤ ptr ∧
      ptr < state.log.pages k + logPageBytes blockSize (first * 2 ^ k)).length
  finds : ∀ ptr ∈ state.live, ∃ k,
    Log.findPage state.log.pages ptr state.log.size state.log.l = some k ∧
      k ≤ state.log.size ∧ state.log.pages k ≤ ptr ∧
      ptr < state.log.pages k + logPageBytes blockSize (first * 2 ^ k)

/-- `malloc` returns null when a page is needed. -/
def LogEvent.NoMemory (state : LogState) : LogEvent → Prop
  | .baLogAlloc answer => state.log.Fills ∧ answer = 0
  | .baLogFree _ | .write _ _ => False

structure LogInv (blockSize first : Nat) (state : LogState) : Prop where
  wide : blockHeaderSize ≤ blockSize
  two : 2 ≤ first
  layout : state.log.l = logLayout blockSize (first * 2 ^ state.log.size)
  fits : logPageBytes blockSize (first * 2 ^ state.log.size) < 2 ^ 32
  pages : PagesInv state.log.pages blockSize first state.log.header state.log.memory
    state.log.size state.live
  current : (state.log.header (state.log.pages state.log.size)).first ≠ 0

variable {blockSize first blocks : Nat} {state next : LogState} {event : LogEvent}

theorem LogInv.wide_pos (inv : LogInv blockSize first state) : 0 < blockSize :=
  Nat.lt_of_lt_of_le (by decide) inv.wide

theorem LogInv.kept (inv : LogInv blockSize first state) : LogKept blockSize first state where
  block := by
    intro ptr member
    obtain ⟨k, inRange, isCell⟩ := inv.pages.covered ptr member
    obtain ⟨n, below, isBlock⟩ := mem_run.mp isCell
    exact ⟨k, inRange, n, below, isBlock⟩
  distinct := inv.pages.nodup
  apart := inv.pages.apart
  current := by
    obtain ⟨_, _, free, fresh, slab⟩ := inv.pages.page _ (Nat.le_refl _)
    obtain ⟨isCell, notLive⟩ := slab.head_free inv.current
    obtain ⟨n, below, isBlock⟩ := mem_run.mp isCell
    exact ⟨n, below, isBlock, fun member => notLive (mem_liveIn.mpr ⟨member, isCell⟩)⟩
  used := by
    intro k inRange
    rw [(inv.pages.page k inRange).used]
    unfold liveIn
    congr 1
    apply List.filter_congr
    intro ptr member
    rw [decide_eq_decide]
    constructor
    · intro isCell
      have bounds := mem_cellsOf_bounds isCell
      have positive := inv.wide_pos
      omega
    · rintro ⟨above, below⟩
      obtain ⟨owner, ownerIn, isCell⟩ := inv.pages.covered ptr member
      by_cases same : owner = k
      · exact same ▸ isCell
      · have between := inv.pages.apart owner ownerIn k inRange same
        have bounds := mem_cellsOf_bounds isCell
        have positive := inv.wide_pos
        unfold Library.Apart at between
        omega
  finds := by
    intro ptr member
    obtain ⟨k, inRange, isCell⟩ := inv.pages.covered ptr member
    have bounds := mem_cellsOf_bounds isCell
    have positive := inv.wide_pos
    refine ⟨k, ?_, inRange, by omega, by omega⟩
    rw [inv.layout]
    exact inv.pages.findPage_eq positive inv.two inv.fits inRange isCell inRange (Nat.le_refl _)

/-- Taking a block of the current page is taking a cell of a slab. -/
theorem LogInv.nextFree_eq (inv : LogInv blockSize first state) (ptr : Nat) :
    state.log.nextFree (state.log.pages state.log.size) ptr =
      takeCell state.log.memory blockSize (state.log.pages state.log.size + logPageSize +
        (first * 2 ^ state.log.size - 1) * blockSize) ptr := by
  unfold Log.nextFree takeCell Layout.lastBlock
  rw [inv.layout, Nat.add_assoc (state.log.pages state.log.size)]
  rfl

theorem logInv_initial (wide : blockHeaderSize ≤ blockSize) (nonempty : 0 < blocks)
    (fits : logPageBytes blockSize (firstBlocks blocks) < 2 ^ 32) {answer : Nat} {memory : Words}
    (result : Log.baLogInit blockSize blocks answer memory = some state.log)
    (empty : state.live = []) : LogInv blockSize (firstBlocks blocks) state := by
  have positive : 0 < blockSize := Nat.lt_of_lt_of_le (by decide) wide
  have two := two_le_firstBlocks blocks
  have small : blocks < 2 ^ 31 := by
    have bound := le_firstBlocks blocks
    have count := Nat.mul_le_mul_right (firstBlocks blocks) wide
    unfold logPageBytes at fits
    unfold blockHeaderSize at count
    omega
  have rounded := roundUp32_eq (Nat.ne_of_gt nonempty) small
  have offset := logOffset_eq (show 0 < firstBlocks blocks by omega) positive fits
  obtain ⟨log, live⟩ := state
  cases empty
  unfold Log.baLogInit Log.baAllocLogPage at result
  dsimp only at result
  by_cases refused : answer = 0
  · rw [if_pos refused] at result
    cases result
  · rw [if_neg refused] at result
    cases result
    have isFirst : (⟨logOffset blockSize (roundUp32 blocks), blockSize, roundUp32 blocks⟩ :
        Layout).logBlockN answer 0 = answer + logPageSize := by
      unfold Layout.logBlockN
      rw [Nat.zero_mul, Nat.add_zero]
    have isPage : Function.update (fun _ => 0) 0 answer 0 = answer := Function.update_self ..
    have above : freshTag < answer + logPageSize := by
      unfold freshTag logPageSize
      omega
    have one : firstBlocks blocks * 2 ^ 0 = firstBlocks blocks := by
      rw [Nat.pow_zero, Nat.mul_one]
    refine ⟨wide, two, ?_, ?_, ⟨?_, ?_, ?_, List.nodup_nil⟩, ?_⟩
    · rw [one, rounded]
      unfold logLayout
      rw [offset]
      rfl
    · rw [one]
      exact fits
    · intro k inRange
      cases Nat.le_zero.mp inRange
      refine ⟨?_, ?_, [], 0, ?_⟩
      all_goals dsimp only
      · rw [isPage]
        exact refused
      · rw [isPage, Function.update_self]
        rfl
      · rw [isPage, Function.update_self, isFirst, one]
        exact TaggedSlab.new above positive two (Function.update_self ..)
    · intro i leftIn j rightIn different
      exact absurd ((Nat.le_zero.mp leftIn).trans (Nat.le_zero.mp rightIn).symm) different
    · intro block member
      cases member
    · dsimp only
      rw [isPage, Function.update_self, isFirst]
      exact Nat.ne_of_gt (Nat.lt_trans Nat.zero_lt_one above)

/-! ## Events -/

/-- `ba_log_alloc` takes a block, unless there is no page for the blocks after it. -/
theorem LogInv.alloc (inv : LogInv blockSize first state) {answer : Nat}
    (enabled : state.Enabled (.baLogAlloc answer)) :
    (state.log.Fills ∧ answer = 0) ∧ state.log.baLogAlloc answer = none ∨
      ∃ ptr log, state.log.baLogAlloc answer = some (ptr, log) ∧ ptr ∉ state.live ∧
        LogInv blockSize first ⟨log, ptr :: state.live⟩ := by
  have positive := inv.wide_pos
  have two := inv.two
  obtain ⟨isNew, taken⟩ := inv.pages.take positive inv.current
  have isNext := inv.nextFree_eq (state.log.header (state.log.pages state.log.size)).first
  rw [← isNext] at taken
  have fills : state.log.Fills ↔ (state.log.nextFree (state.log.pages state.log.size)
      (state.log.header (state.log.pages state.log.size)).first).1 = 0 := Iff.rfl
  unfold LogState.Enabled at enabled
  unfold Log.baLogAlloc
  dsimp only
  generalize state.log.nextFree (state.log.pages state.log.size)
    (state.log.header (state.log.pages state.log.size)).first = found at *
  by_cases full : found.1 = 0
  · rw [if_pos full]
    obtain ⟨below, fits, answers⟩ := enabled (fills.mpr full)
    have cells : 0 < first * 2 ^ state.log.size := Nat.mul_pos (by omega) (Nat.two_pow_pos _)
    have isSize : state.log.l.blockSize = blockSize := by
      rw [inv.layout]
      rfl
    have isBlocks : state.log.l.blocks = first * 2 ^ state.log.size := by
      rw [inv.layout]
      rfl
    have doubled : 2 * (first * 2 ^ state.log.size) = first * 2 ^ (state.log.size + 1) := by
      rw [Nat.pow_succ, Nat.mul_left_comm, Nat.mul_comm 2]
    have blocksOf : ∀ k ≤ state.log.size, state.log.blocksOf k = first * 2 ^ k := by
      intro k inRange
      have split : 2 ^ state.log.size = 2 ^ k * 2 ^ (state.log.size - k) := by
        rw [← Nat.pow_add, Nat.add_sub_cancel' inRange]
      unfold Log.blocksOf
      rw [isBlocks, split, ← Nat.mul_assoc, Nat.mul_div_cancel _ (Nat.two_pow_pos _)]
    rw [isSize, isBlocks] at fits answers
    have isDouble : state.log.l.baDoubleLayout =
        logLayout blockSize (first * 2 ^ (state.log.size + 1)) := by
      rw [inv.layout, baDoubleLayout_eq cells positive fits, doubled]
    unfold Log.baAllocLogPage
    by_cases refused : answer = 0
    · rw [if_pos refused]
      exact .inl ⟨⟨fills.mpr full, refused⟩, rfl⟩
    · rw [if_neg refused]
      have apart : ∀ k ≤ state.log.size, Library.Apart (state.log.pages k)
          (logPageBytes blockSize (first * 2 ^ k)) answer
          (logPageBytes blockSize (first * 2 ^ (state.log.size + 1))) := by
        intro k inRange
        have between := answers.resolve_left refused k inRange
        rwa [blocksOf k inRange, doubled] at between
      have grown := taken.grow positive two refused apart
      have isFirst : state.log.l.baDoubleLayout.logBlockN answer 0 = answer + logPageSize := by
        unfold Layout.logBlockN
        rw [Nat.zero_mul, Nat.add_zero]
      refine .inr ⟨_, _, rfl, isNew, inv.wide, two, isDouble, ?_, ?_, ?_⟩
      · rw [← doubled]
        exact fits
      · dsimp only
        rw [isFirst]
        exact grown
      · dsimp only
        rw [Function.update_self, Function.update_self, isFirst]
        unfold logPageSize
        exact Nat.ne_of_gt (Nat.add_pos_right _ (by decide))
  · rw [if_neg full]
    refine .inr ⟨_, _, rfl, isNew, inv.wide, two, inv.layout, inv.fits, taken, ?_⟩
    dsimp only
    rw [Function.update_self]
    exact full

/-- The loop of `ba_log_free` leaves a current page with a free block. -/
theorem dropPages_inv {i : Nat} {log : Log} {live : List Nat} (wide : blockHeaderSize ≤ blockSize)
    (two : 2 ≤ first) (layout : log.l = logLayout blockSize (first * 2 ^ i))
    (fits : logPageBytes blockSize (first * 2 ^ i) < 2 ^ 32)
    (pages : PagesInv log.pages blockSize first log.header log.memory i live)
    (current : (log.header (log.pages i)).first ≠ 0) :
    LogInv blockSize first ⟨Log.dropPages i log, live⟩ := by
  have positive : 0 < blockSize := Nat.lt_of_lt_of_le (by decide) wide
  induction i generalizing log with
  | zero => exact ⟨wide, two, layout, fits, pages, current⟩
  | succ i induction =>
      unfold Log.dropPages
      by_cases drops : (log.header (log.pages (i + 1))).used = 0 ∧
          (log.header (log.pages i)).first ≠ 0
      · rw [if_pos drops]
        have doubled : first * 2 ^ (i + 1) = 2 * (first * 2 ^ i) := by
          rw [Nat.pow_succ, ← Nat.mul_assoc, Nat.mul_comm]
        have cells : 0 < first * 2 ^ i := Nat.mul_pos (by omega) (Nat.two_pow_pos _)
        have less : first * 2 ^ i ≤ first * 2 ^ (i + 1) := by omega
        apply induction
        · dsimp only
          rw [layout, doubled]
          rw [doubled] at fits
          exact baHalfLayout_eq cells positive fits
        · exact Nat.lt_of_le_of_lt (logPageBytes_mono less) fits
        · exact pages.drop drops.1
        · dsimp only
          rw [Function.update_of_ne (Nat.ne_of_lt (Nat.lt_succ_self i))]
          exact drops.2
      · rw [if_neg drops]
        exact ⟨wide, two, layout, fits, pages, current⟩

/-- `ba_log_free` of a block in use. -/
theorem LogInv.free (inv : LogInv blockSize first state) {ptr : Nat} {after : List Nat}
    (perm : state.live.Perm (ptr :: after)) :
    ∃ log, state.log.baLogFree ptr = some log ∧ LogInv blockSize first ⟨log, after⟩ := by
  have positive := inv.wide_pos
  have isLive : ptr ∈ state.live := perm.mem_iff.mpr List.mem_cons_self
  obtain ⟨k, inRange, isCell⟩ := inv.pages.covered ptr isLive
  have nonzero : ptr ≠ 0 := by
    have bounds := mem_cellsOf_bounds isCell
    unfold logPageSize at bounds
    omega
  have isPage := inv.pages.findPage_eq positive inv.two inv.fits inRange isCell inRange
    (Nat.le_refl _)
  rw [← inv.layout] at isPage
  have put := inv.pages.put positive perm inRange isCell
  unfold Log.baLogFree
  rw [isPage, Option.bind_eq_bind, Option.bind_some]
  dsimp only
  split
  · next shrinks =>
      obtain ⟨_, rfl⟩ := shrinks
      refine ⟨_, rfl, dropPages_inv inv.wide inv.two inv.layout inv.fits put ?_⟩
      dsimp only
      rw [Function.update_self]
      exact nonzero
  · next stays =>
      refine ⟨_, rfl, inv.wide, inv.two, inv.layout, inv.fits, put, ?_⟩
      dsimp only
      by_cases same : k = state.log.size
      · subst same
        rw [Function.update_self]
        exact nonzero
      · have different := (inv.pages.other positive (Nat.le_refl _) inRange (Ne.symm same)).1
        rw [Function.update_of_ne different]
        exact inv.current

theorem LogState.step_baLogAlloc (answer : Nat) : state.step (.baLogAlloc answer) = (do
    let (ptr, log) ← state.log.baLogAlloc answer
    return LogState.mk log (ptr :: state.live)) := rfl

theorem LogInv.step_baLogFree (inv : LogInv blockSize first state) {index : Nat}
    (inRange : index < state.live.length) :
    ∃ log, state.step (.baLogFree index) = some ⟨log, state.live.eraseIdx index⟩ ∧
      LogInv blockSize first ⟨log, state.live.eraseIdx index⟩ := by
  obtain ⟨log, call, freed⟩ := inv.free (List.getElem_cons_eraseIdx_perm inRange).symm
  refine ⟨log, ?_, freed⟩
  simp only [LogState.step, List.getElem?_eq_getElem inRange, Option.bind_eq_bind,
    Option.bind_some, call]
  rfl

theorem logStep_inv (inv : LogInv blockSize first state) (enabled : state.Enabled event)
    (result : state.step event = some next) : LogInv blockSize first next := by
  cases event with
  | baLogAlloc answer =>
      rw [LogState.step_baLogAlloc] at result
      rcases inv.alloc enabled with ⟨_, failed⟩ | ⟨ptr, log, call, _, served⟩
      · rw [failed] at result
        cases result
      · rw [call] at result
        cases result
        exact served
  | baLogFree index =>
      obtain ⟨log, call, freed⟩ := inv.step_baLogFree enabled
      cases call.symm.trans result
      exact freed
  | write place value =>
      cases result
      obtain ⟨block, isLive, above, below⟩ := enabled
      have isSize : state.log.l.blockSize = blockSize := by
        rw [inv.layout]
        rfl
      rw [isSize] at below
      exact ⟨inv.wide, inv.two, inv.layout, inv.fits,
        inv.pages.write isLive above below value, inv.current⟩

theorem LogInv.fails (inv : LogInv blockSize first state) (enabled : state.Enabled event)
    (fault : state.step event = none) : event.NoMemory state := by
  cases event with
  | baLogAlloc answer =>
      rw [LogState.step_baLogAlloc] at fault
      rcases inv.alloc enabled with ⟨refused, _⟩ | ⟨ptr, log, call, _, _⟩
      · exact refused
      · rw [call] at fault
        cases fault
  | baLogFree index =>
      obtain ⟨_, call, _⟩ := inv.step_baLogFree enabled
      cases call.symm.trans fault
  | write place value => cases fault

/-- Over every run with at most sixteen pages the allocator keeps its pages straight, and an
event fails only when `malloc` has no memory for a page. -/
theorem log_kept (wide : blockHeaderSize ≤ blockSize) (nonempty : 0 < blocks)
    (fits : logPageBytes blockSize (firstBlocks blocks) < 2 ^ 32)
    (reached : (logMachine blockSize blocks).Reachable (fun _ _ => True) state) :
    LogKept blockSize (firstBlocks blocks) state ∧
      ∀ event, state.Enabled event → state.step event = none → event.NoMemory state := by
  have inv : LogInv blockSize (firstBlocks blocks) state := by
    apply Machine.Reachable.invariant _ _ reached
    · rintro state ⟨answer, memory, result, empty⟩
      exact logInv_initial wide nonempty fits result empty
    · exact fun state event next inv enabled _ result => logStep_inv inv enabled result
  exact ⟨inv.kept, fun event enabled fault => inv.fails enabled fault⟩

/-- A page of two blocks, of which the program has one. -/
theorem log_kept_alloc : ∃ log state, Log.baLogInit 8 1 4096 (fun _ => 0) = some log ∧
    LogState.step ⟨log, []⟩ (.baLogAlloc 0) = some state ∧ LogKept 8 2 state := by
  have made : (Log.baLogInit 8 1 4096 (fun _ => 0)).isSome := by decide
  obtain ⟨log, isLog⟩ := Option.isSome_iff_exists.mp made
  have notFull : ¬ log.Fills := by
    cases isLog
    decide
  have enabled : LogState.Enabled ⟨log, []⟩ (.baLogAlloc 0) := fun fills => absurd fills notFull
  have initial : (logMachine 8 1).Reachable (fun _ _ => True) ⟨log, []⟩ :=
    .init ⟨4096, _, isLog, rfl⟩
  cases stepped : LogState.step ⟨log, []⟩ (.baLogAlloc 0) with
  | none =>
      have refused := (log_kept (by decide) (by decide) (by decide) initial).2 _ enabled stepped
      exact absurd refused.1 notFull
  | some state =>
      have reached := @Machine.Reachable.step _ _ (logMachine 8 1) (fun _ _ => True) _ _
        (.baLogAlloc 0) initial enabled trivial stepped
      have kept := (log_kept (by decide) (by decide) (by decide) reached).1
      exact ⟨log, state, isLog, stepped, kept⟩

end MallocSurvey.Gjalloc
