import MallocSurvey.Winnie1.Moving

/-! # What `MSize` and `Realloc` do to payloads

`Realloc` is followed through all runs of the program that calls it. -/

namespace MallocSurvey.Winnie1

open Library

variable {config : Config} {pool : Pool} {live : List Block} {free : List (FreeBlock Nat)}

/-! ## Requests -/

/-- Larger requests run past the table. -/
theorem getNextPowerOfTwo_bound {size log : Nat} (positive : 0 < size) (word : size < 2 ^ 64)
    (isLog : getNextPowerOfTwo size = some log) : size ≤ 2 ^ 32 := by
  by_contra large
  have decremented : (size + 2 ^ 64 - 1) % 2 ^ 64 = size - 1 := by omega
  have outside : 256 ≤ (size - 1) >>> 24 := by
    rw [Nat.shiftRight_eq_div_pow]
    exact (Nat.le_div_iff_mul_le (Nat.two_pow_pos _)).mpr (by omega)
  have noEntry : bitTable[(size - 1) >>> 24]? = none := by
    have length : bitTable.length = 256 := by decide +kernel
    rw [List.getElem?_eq_none_iff, length]
    exact outside
  unfold getNextPowerOfTwo at isLog
  rw [decremented] at isLog
  dsimp only at isLog
  rw [if_neg (by omega), if_neg (by omega), if_neg (by omega), noEntry] at isLog
  cases isLog

/-- Blocks of lists are small if there is a threshold, and the others are large. -/
structure Sized (config : Config) (block : Block) : Prop where
  pooled : config.useMallocThreshold = true → ∀ listNum, block.listNum = some listNum →
    listNum ≤ 11
  malloced : block.listNum = none → mallocThreshold ≤ block.size

theorem sized_source {size : Nat} (bound : size + sizeofHeader ≤ 2 ^ 32) (pointer : Nat) :
    Sized config ⟨pointer, size, source config size⟩ := by
  obtain ⟨log, isLog, upper, lower⟩ :=
    getNextPowerOfTwo_spec (Nat.lt_add_left size (show 0 < sizeofHeader by decide)) bound
  by_cases isLarge : config.useMallocThreshold = true ∧ mallocThreshold ≤ size
  · have fromMalloc : source config size = none := if_pos isLarge
    rw [fromMalloc]
    exact ⟨fun _ listNum isListNum => (by cases isListNum), fun _ => isLarge.2⟩
  · have fromList : source config size = some log := (if_neg isLarge).trans isLog
    rw [fromList]
    refine ⟨?_, fun isNone => (by cases isNone)⟩
    intro used listNum isListNum
    cases isListNum
    by_contra large
    have step := lower 11 (Nat.lt_of_not_le large)
    have small : ¬ mallocThreshold ≤ size := fun isThreshold => isLarge ⟨used, isThreshold⟩
    unfold mallocThreshold sizeofHeader at *
    omega

theorem alloc_pooled {size listNum : Nat} (word : size + sizeofHeader < 2 ^ 64)
    (fromList : source config size = some listNum) (pool : Pool) (answer : Nat) :
    alloc config pool size answer = pool.allocFromLists listNum answer := by
  unfold source at fromList
  split at fromList
  · cases fromList
  · next small =>
      unfold alloc
      rw [Nat.mod_eq_of_lt word, fromList]
      simp only [Option.bind_eq_bind, Option.bind_some]
      exact if_neg small

/-! ## The branches of `Realloc` -/

theorem realloc_malloced {p size answer : Nat}
    (isMalloced : config.useMallocThreshold = true ∧ pool.memory (p - sizeofHeader) ≠ 0)
    (small : size < mallocThreshold) :
    realloc config pool p size answer =
      move config pool p size size answer fun pool => pool.cfree (p - sizeofHeader) := by
  unfold realloc
  rw [if_pos isMalloced, if_pos small]
  rfl

theorem realloc_malloced_large {block : Block} {size answer : Nat}
    (isMalloced : config.useMallocThreshold = true ∧ pool.memory block.header ≠ 0)
    (large : ¬ size < mallocThreshold) :
    realloc config pool block.pointer size answer = (do
      let (pNewHeader, pool) ← pool.crealloc block.header (size + sizeofHeader) answer
      if pNewHeader = 0 then return (0, pool, [])
      else return (pNewHeader + sizeofHeader,
        { pool with memory := Function.update pool.memory pNewHeader 1 }, [])) := by
  unfold realloc
  exact (if_pos isMalloced).trans (if_neg large)

theorem realloc_moves {p size answer newListNum : Nat}
    (isPooled : ¬ (config.useMallocThreshold = true ∧ pool.memory (p - sizeofHeader) ≠ 0))
    (isNew : getNextPowerOfTwo (size + sizeofHeader) = some newListNum)
    (different : (pool.memory (p - sizeofHeader + 1)).toNat ≠ newListNum) :
    realloc config pool p size answer =
      move config pool p size
        (if size ≤ 2 ^ (pool.memory (p - sizeofHeader + 1)).toNat then size
          else 2 ^ (pool.memory (p - sizeofHeader + 1)).toNat)
        answer fun pool => Winnie1.free config pool p := by
  unfold realloc
  rw [if_neg isPooled, isNew]
  simp only [Option.bind_eq_bind, Option.bind_some]
  rw [if_pos different]
  rfl

/-- The copy is inside if it is not longer than the old payload. -/
theorem Moved.inside_iff {next : Pool} {block : Block} {rest : List Block}
    {size length pointer : Nat} (within : length ≤ size)
    (moved : Moved config pool block rest size length next pointer)
    (covers : min (pool.payload config block.pointer) size ≤ length) :
    StaysInside config pool next block.pointer size pointer
      [⟨pointer, block.pointer, length⟩] ↔ length ≤ pool.payload config block.pointer := by
  constructor
  · intro inside
    exact (inside.1 _ (List.mem_singleton_self _)).2.1
  · intro short
    cases moved with
    | dropped empty =>
        refine ⟨?_, fun nonzero => absurd rfl nonzero⟩
        intro copy isCopy
        cases List.mem_singleton.mp isCopy
        exact ⟨rfl, short, rfl, by dsimp only; omega⟩
    | copied nonzero nextInv contents =>
        have room := nextInv.size_le_payload List.mem_cons_self
        dsimp only at room
        refine ⟨?_, fun _ => ⟨by omega, fun place inPayload => ?_⟩⟩
        · intro copy isCopy
          cases List.mem_singleton.mp isCopy
          exact ⟨rfl, short, rfl, Nat.le_trans within room⟩
        · exact contents place (by omega) (by omega)

theorem Moved.relive_inv {next : Pool} {block : Block} {index size length pointer : Nat}
    (moved : Moved config pool block (live.eraseIdx index) size length next pointer)
    (copy : Copy) :
    ∃ nextFree, Inv config next (relive config live index block size pointer [copy]) nextFree := by
  cases moved with
  | dropped empty nextInv => exact ⟨_, nextInv⟩
  | copied nonzero nextInv _ =>
      unfold relive
      rw [if_neg (by rw [List.isEmpty_cons]; decide), if_neg nonzero]
      exact ⟨_, nextInv⟩

/-- The blocks that are still live and the new one. -/
theorem sized_relive {block : Block} {index size result : Nat} {copies : List Copy}
    (sized : ∀ other ∈ live, Sized config other)
    (stays : copies = [] → ∀ pointer, Sized config ⟨pointer, size, block.listNum⟩)
    (moves : copies ≠ [] → ∀ pointer, Sized config ⟨pointer, size, source config size⟩) :
    ∀ other ∈ relive config live index block size result copies, Sized config other := by
  have rest : ∀ other ∈ live.eraseIdx index, Sized config other :=
    fun other member => sized other (List.mem_of_mem_eraseIdx member)
  intro other member
  unfold relive at member
  cases copies with
  | nil =>
      rw [if_pos List.isEmpty_nil] at member
      split at member
      · exact sized other member
      · rcases List.mem_cons.mp member with isNew | isOld
        · exact isNew ▸ stays rfl result
        · exact rest other isOld
  | cons copy others =>
      rw [if_neg (by rw [List.isEmpty_cons]; decide)] at member
      split at member
      · exact rest other member
      · rcases List.mem_cons.mp member with isNew | isOld
        · exact isNew ▸ moves (List.cons_ne_nil _ _) result
        · exact rest other isOld

/-! ## A call of `Realloc` -/

/-- What a call of `Realloc` leads to. -/
def Realloced (config : Config) (pool : Pool) (live : List Block) (index : Nat) (block : Block)
    (size answer : Nat) : Prop :=
  realloc config pool block.pointer size answer = none ∧ ¬ ReallocFits pool block size answer ∨
    ∃ result next copies nextFree,
      realloc config pool block.pointer size answer = some (result, next, copies) ∧
      Inv config next (relive config live index block size result copies) nextFree ∧
      (∀ other ∈ relive config live index block size result copies, Sized config other) ∧
      (StaysInside config pool next block.pointer size result copies ↔
        ReallocFits pool block size answer)

theorem live_perm {index : Nat} {block : Block} (isAt : live[index]? = some block) :
    live.Perm (block :: live.eraseIdx index) := by
  obtain ⟨inRange, isBlock⟩ := List.getElem?_eq_some_iff.mp isAt
  rw [← isBlock]
  exact (List.getElem_cons_eraseIdx_perm inRange).symm

/-- A block that is copied, whose copy stays inside exactly if there is a block for it. -/
theorem Inv.realloced_of_move (inv : Inv config pool live free) {index : Nat} {block : Block}
    (isAt : live[index]? = some block) (sized : ∀ other ∈ live, Sized config other)
    {size length answer pointer : Nat} {served : Pool} {release : Pool → Option Pool}
    (isMove : realloc config pool block.pointer size answer =
      move config pool block.pointer size length answer release)
    (bound : size + sizeofHeader ≤ 2 ^ 32)
    (call : alloc config pool size answer = some (pointer, served))
    (allocated : Allocated config live size served pointer)
    (kept : Undisturbed live pool.memory served.memory) (within : length ≤ size)
    (releases : ∀ {other : Pool} {others : List Block} {otherFree : List (FreeBlock Nat)},
      Inv config other others otherFree → block ∈ others →
      release other = Winnie1.free config other block.pointer)
    (covers : min (pool.payload config block.pointer) size ≤ length)
    (fits : ReallocFits pool block size answer ↔
      length ≤ pool.payload config block.pointer ∧ (pointer ≠ 0 ∨ length = 0)) :
    Realloced config pool live index block size answer := by
  unfold Realloced
  rw [isMove, fits]
  rcases inv.move_spec (live_perm isAt) call allocated kept within releases with
    ⟨nothing, fault⟩ | ⟨something, next, result, moved⟩
  · left
    exact ⟨fault, fun fitting => fitting.2.elim (fun nonzero => nonzero nothing.1)
      (fun empty => nothing.2 empty)⟩
  · right
    obtain ⟨nextFree, nextInv⟩ := moved.relive_inv ⟨pointer, block.pointer, length⟩
    refine ⟨_, _, _, nextFree, result, nextInv, ?_, ?_⟩
    · exact sized_relive sized nofun fun _ => sized_source bound
    · rw [moved.inside_iff within covers]
      exact ⟨fun short => ⟨short, something⟩, fun fitting => fitting.1⟩

theorem Inv.realloc_malloced_spec (inv : Inv config pool live free) {index : Nat} {block : Block}
    (isAt : live[index]? = some block) (sized : ∀ other ∈ live, Sized config other)
    (isNone : block.listNum = none) {size answer : Nat}
    (answers : ReallocAnswers config pool block size answer) :
    Realloced config pool live index block size answer := by
  have isLive : block ∈ live := List.mem_of_getElem? isAt
  have isMalloced := (inv.liveOk block isLive).malloced isNone
  have old := (sized block isLive).malloced isNone
  have room := inv.size_le_payload isLive
  by_cases small : size < mallocThreshold
  · have bound : size + sizeofHeader ≤ 2 ^ 32 := by
      unfold mallocThreshold sizeofHeader at *
      omega
    obtain ⟨log, isLog, upper, lower⟩ :=
      getNextPowerOfTwo_spec (Nat.lt_add_left size (show 0 < sizeofHeader by decide)) bound
    have fromList : source config size = some log :=
      (if_neg fun isLarge => absurd isLarge.2 (Nat.not_le_of_lt small)).trans isLog
    have isAnswer := answers.2
    rw [if_neg fun isLarge => absurd isLarge.2 (Nat.not_le_of_lt small)] at isAnswer
    rcases inv.alloc_spec bound isAnswer with ⟨pointer, served, call, allocated, kept⟩ | ⟨_, unused⟩
    · have served' := call
      rw [alloc_pooled answers.1 fromList] at served'
      apply inv.realloced_of_move isAt sized (realloc_malloced isMalloced small) bound call
        allocated kept (Nat.le_refl _) (fun otherInv isOther => (otherInv.free_malloced isOther
          isNone).symm) (Nat.min_le_right _ _)
      rw [Pool.allocFromLists_served served']
      unfold ReallocFits
      rw [isNone, isLog]
      constructor
      · rintro (isLarge | empty | ⟨listNum, isListNum, serves⟩)
        · exact absurd small (Nat.not_lt_of_le isLarge)
        · exact ⟨by omega, .inr empty⟩
        · cases isListNum
          exact ⟨by omega, .inl serves⟩
      · rintro ⟨_, serves | empty⟩
        · exact .inr (.inr ⟨log, rfl, serves⟩)
        · exact .inr (.inl empty)
    · rw [isMalloced.1] at unused
      cases unused
  · have isLarge : mallocThreshold ≤ size := Nat.le_of_not_lt small
    have fits : ReallocFits pool block size answer := by
      unfold ReallocFits
      rw [isNone]
      exact .inl isLarge
    have moves := answers.2
    rw [if_pos ⟨isNone, isLarge⟩] at moves
    right
    rw [realloc_malloced_large isMalloced small]
    by_cases isNull : answer = 0
    · have refused : pool.crealloc block.header (size + sizeofHeader) answer = some (0, pool) := by
        unfold Pool.crealloc
        rw [inv.find_malloced isLive isNone]
        simp only [Option.bind_eq_bind, Option.bind_some]
        exact if_pos isNull
      rw [refused]
      exact ⟨0, pool, [], free, rfl, inv, sized,
        fun _ => fits,
        fun _ => ⟨fun _ member => absurd member List.not_mem_nil,
          fun nonzero => absurd rfl nonzero⟩⟩
    · obtain ⟨moved, nextFree, result, nextInv, contents⟩ :=
        inv.crealloc_spec (live_perm isAt) isNone isNull moves
      have nextRoom := nextInv.size_le_payload List.mem_cons_self
      rw [result]
      simp only [Option.bind_eq_bind, Option.bind_some]
      rw [if_neg isNull]
      have nonzero : answer + sizeofHeader ≠ 0 := by
        unfold sizeofHeader
        omega
      refine ⟨_, _, [], nextFree, rfl, ?_, ?_, fun _ => fits,
        fun _ => ⟨fun _ member => absurd member List.not_mem_nil, fun _ => ?_⟩⟩
      · unfold relive
        rw [if_pos List.isEmpty_nil, if_neg nonzero, isNone]
        exact nextInv
      · apply sized_relive sized _ fun absent => absurd rfl absent
        intro _ pointer
        rw [isNone]
        exact ⟨fun _ listNum isListNum => (by cases isListNum), fun _ => isLarge⟩
      · exact ⟨Nat.le_trans (Nat.min_le_right _ _) nextRoom, contents⟩

theorem Inv.realloc_pooled_spec (inv : Inv config pool live free) {index : Nat} {block : Block}
    (isAt : live[index]? = some block) (sized : ∀ other ∈ live, Sized config other)
    {oldListNum : Nat} (isListNum : block.listNum = some oldListNum) {size answer : Nat}
    (answers : ReallocAnswers config pool block size answer) :
    Realloced config pool live index block size answer := by
  have isLive : block ∈ live := List.mem_of_getElem? isAt
  obtain ⟨notMalloced, named⟩ := inv.header_listNum isLive isListNum
  have isPooled : ¬ (config.useMallocThreshold = true ∧
      pool.memory (block.pointer - sizeofHeader) ≠ 0) := fun marked => marked.2 notMalloced
  have isNamed : (pool.memory (block.pointer - sizeofHeader + 1)).toNat = oldListNum := named
  have payload : pool.payload config block.pointer = 2 ^ oldListNum - sizeofHeader := by
    rw [inv.payload_eq isLive]
    unfold Block.whole
    rw [isListNum]
  have word := eight_le_pow ((inv.liveOk block isLive).pooled oldListNum isListNum).2.1
  have positive : 0 < size + sizeofHeader := Nat.lt_add_left _ (by decide)
  have isAnswer := answers.2
  rw [if_neg (fun isLarge => by rw [isListNum] at isLarge; cases isLarge.1)] at isAnswer
  cases isNew : getNextPowerOfTwo (size + sizeofHeader) with
  | none =>
      left
      unfold realloc ReallocFits
      rw [if_neg isPooled, isListNum, isNew]
      refine ⟨rfl, ?_⟩
      rintro ⟨listNum, isSome, _⟩
      cases isSome
  | some newListNum =>
      have bound := getNextPowerOfTwo_bound positive answers.1 isNew
      obtain ⟨log, isLog, upper, lower⟩ := getNextPowerOfTwo_spec positive bound
      cases isNew.symm.trans isLog
      rcases Nat.lt_trichotomy newListNum oldListNum with shrinks | same | grows
      · have power : 2 ^ newListNum * 2 ≤ 2 ^ oldListNum := by
          rw [← Nat.pow_succ]
          exact Nat.pow_le_pow_right Nat.two_pos shrinks
        have fromList : source config size = some newListNum := by
          refine (if_neg ?_).trans isNew
          rintro ⟨used, isLarge⟩
          have few := (sized block isLive).pooled used oldListNum isListNum
          have small : 2 ^ newListNum ≤ 2 ^ 10 := Nat.pow_le_pow_right Nat.two_pos (by omega)
          unfold mallocThreshold sizeofHeader at *
          omega
        have old := (inv.liveOk block isLive).pooled oldListNum isListNum
        have large : 3 ≤ newListNum := by
          by_contra small
          have pow : 2 ^ newListNum ≤ 2 ^ 2 := Nat.pow_le_pow_right Nat.two_pos (by omega)
          unfold sizeofHeader at upper
          omega
        unfold systemSize at isAnswer
        rw [fromList] at isAnswer
        obtain ⟨pointer, served, call, allocated, kept⟩ :=
          inv.allocFromLists_spec large (by omega) upper fromList fun _ => isAnswer
        have serves := Pool.allocFromLists_served call
        rw [← alloc_pooled answers.1 fromList] at call
        have moves := @realloc_moves config pool _ _ answer _ isPooled isNew (by omega)
        rw [isNamed, if_pos (by unfold sizeofHeader at upper; omega)] at moves
        apply inv.realloced_of_move isAt sized moves bound call allocated kept (Nat.le_refl _)
          (fun _ _ => rfl) (Nat.min_le_right _ _)
        rw [serves, payload]
        unfold ReallocFits
        rw [isListNum, isNew]
        constructor
        · rintro ⟨listNum, isSome, same | ⟨_, fits⟩⟩
          · cases isSome
            omega
          · cases isSome
            exact ⟨by omega, fits.symm⟩
        · rintro ⟨_, fits⟩
          exact ⟨newListNum, rfl, .inr ⟨shrinks, fits.symm⟩⟩
      · subst same
        have stays : realloc config pool block.pointer size answer =
            some (block.pointer, pool, []) := by
          unfold realloc
          rw [if_neg isPooled, isNew]
          simp only [Option.bind_eq_bind, Option.bind_some]
          exact if_neg (fun different => different isNamed)
        have nonzero : block.pointer ≠ 0 := by
          have pointer := (inv.liveOk block isLive).pointer
          omega
        right
        refine ⟨_, _, _, free, stays, ?_, ?_, ?_⟩
        · unfold relive
          rw [if_pos List.isEmpty_nil, if_neg nonzero, isListNum]
          exact inv.resize (live_perm isAt) isListNum upper
        · apply sized_relive sized _ fun absent => absurd rfl absent
          intro _ pointer
          exact ⟨(sized block isLive).pooled, fun isNone => by rw [isListNum] at isNone; cases isNone⟩
        · unfold ReallocFits
          rw [isListNum, isNew]
          exact ⟨fun _ => ⟨_, rfl, .inl rfl⟩,
            fun _ => ⟨nofun, fun _ => ⟨Nat.min_le_left _ _, fun _ _ => rfl⟩⟩⟩
      · have more := lower oldListNum grows
        have misfits : ¬ ReallocFits pool block size answer := by
          unfold ReallocFits
          rw [isListNum, isNew]
          rintro ⟨listNum, isSome, same | ⟨less, _⟩⟩
          · cases isSome
            omega
          · cases isSome
            omega
        have moves := @realloc_moves config pool _ _ answer _ isPooled isNew (by omega)
        rw [isNamed] at moves
        rcases inv.alloc_spec bound isAnswer with ⟨pointer, served, call, allocated, kept⟩ | ⟨fault, _⟩
        · apply inv.realloced_of_move isAt sized moves bound call allocated kept ?_
            (fun _ _ => rfl) ?_
          · refine ⟨fun fits => absurd fits misfits, ?_⟩
            rintro ⟨short, _⟩
            rw [payload] at short
            unfold sizeofHeader at *
            split at short <;> omega
          · split <;> omega
          · rw [payload]
            unfold sizeofHeader at *
            split <;> omega
        · left
          refine ⟨?_, misfits⟩
          rw [moves]
          unfold move
          rw [fault]
          rfl

theorem Inv.realloc_spec (inv : Inv config pool live free) {index : Nat} {block : Block}
    (isAt : live[index]? = some block) (sized : ∀ other ∈ live, Sized config other)
    {size answer : Nat} (answers : ReallocAnswers config pool block size answer) :
    Realloced config pool live index block size answer := by
  cases isListNum : block.listNum with
  | none => exact inv.realloc_malloced_spec isAt sized isListNum answers
  | some listNum => exact inv.realloc_pooled_spec isAt sized isListNum answers

/-! ## Every run of the program -/

def ProgramKept (config : Config) (state : State) : Prop :=
  (∃ free, Inv config state.pool state.live free) ∧ ∀ block ∈ state.live, Sized config block

/-- The live blocks after a call: old ones and one that was asked for. -/
theorem step_live {state next : State} {event : Event}
    (result : step config state event = some next) :
    ∀ block ∈ next.live, block ∈ state.live ∨
      ∃ pointer size answer, event = .alloc size answer ∧
        block = ⟨pointer, size, source config size⟩ := by
  intro block isLive
  cases event with
  | alloc size answer =>
      rw [step_alloc] at result
      obtain ⟨⟨pointer, pool⟩, _, result⟩ := Option.bind_eq_some_iff.mp result
      dsimp only at result
      split at result
      · cases result
        exact .inl isLive
      · cases result
        rcases List.mem_cons.mp isLive with isNew | isOld
        · exact .inr ⟨pointer, size, answer, rfl, isNew⟩
        · exact .inl isOld
  | free index =>
      obtain ⟨freed, _, result⟩ := Option.bind_eq_some_iff.mp result
      obtain ⟨pool, _, result⟩ := Option.bind_eq_some_iff.mp result
      cases result
      exact .inl (List.mem_of_mem_eraseIdx isLive)
  | write place value =>
      cases result
      exact .inl isLive

theorem program_step_realloc (state : State) (index size answer : Nat) :
    (program config).step state (.realloc index size answer) = (do
      let block ← state.live[index]?
      let (result, pool, copies) ← realloc config state.pool block.pointer size answer
      return State.mk pool (relive config state.live index block size result copies)) := rfl

theorem program_kept {state next : State} {call : Call} (kept : ProgramKept config state)
    (enabled : (program config).Enabled state call)
    (result : (program config).step state call = some next) : ProgramKept config next := by
  cases call with
  | event event =>
      refine ⟨step_kept kept.1 enabled result, ?_⟩
      intro block isLive
      rcases step_live result block isLive with isOld | ⟨pointer, size, answer, isAlloc, rfl⟩
      · exact kept.2 block isOld
      · subst isAlloc
        have isEnabled : Enabled config state (.alloc size answer) := enabled
        exact sized_source isEnabled.1 pointer
  | realloc index size answer =>
      obtain ⟨block, isAt, answers⟩ := enabled
      obtain ⟨free, inv⟩ := kept.1
      rw [program_step_realloc, isAt] at result
      simp only [Option.bind_eq_bind, Option.bind_some] at result
      rcases inv.realloc_spec isAt kept.2 answers with
        ⟨fault, _⟩ | ⟨pointer, pool, copies, nextFree, realloced, nextInv, sized, _⟩
      · rw [fault] at result
        cases result
      · rw [realloced] at result
        cases result
        exact ⟨⟨nextFree, nextInv⟩, sized⟩

theorem program_reachable_kept {state : State}
    (reached : (program config).Reachable (fun _ _ => True) state) : ProgramKept config state := by
  apply Machine.Reachable.invariant _ _ reached
  · rintro state ⟨memory, rfl⟩
    exact ⟨⟨[], inv_initial config memory⟩, nofun⟩
  · intro state event next kept enabled _ result
    exact program_kept kept enabled result

/-- The pool after a hundred bytes at the second megabyte have been asked for. -/
def oneBlock : State :=
  (step ⟨true⟩ ⟨.initial fun _ => 0, []⟩ (.alloc 100 (2 ^ 20))).getD ⟨.initial fun _ => 0, []⟩

theorem oneBlock_reached : (program ⟨true⟩).Reachable (fun _ _ => True) oneBlock := by
  have start : (program ⟨true⟩).Reachable (fun _ _ => True) ⟨.initial fun _ => 0, []⟩ :=
    .init ⟨fun _ => 0, rfl⟩
  have answers : Enabled ⟨true⟩ ⟨.initial fun _ => 0, []⟩ (.alloc 100 (2 ^ 20)) :=
    ⟨by decide, .inr ⟨by decide +kernel, nofun⟩⟩
  have enabled : (program ⟨true⟩).Enabled ⟨.initial fun _ => 0, []⟩
      (.event (.alloc 100 (2 ^ 20))) := answers
  have returns : (step ⟨true⟩ ⟨.initial fun _ => 0, []⟩ (.alloc 100 (2 ^ 20))).isSome := by
    decide +kernel
  obtain ⟨next, stepped⟩ := Option.isSome_iff_exists.mp returns
  unfold oneBlock
  rw [stepped]
  exact start.step enabled trivial stepped

theorem oneBlock_live : oneBlock.live = [⟨2 ^ 20 + 8, 100, some 7⟩] := by
  decide +kernel

end MallocSurvey.Winnie1
