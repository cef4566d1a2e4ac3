import MallocSurvey.Ltalloc.Contents
import MallocSurvey.Ltalloc.Memalign

/-! # `ltcalloc` and `ltrealloc`

Both pass what `ltmalloc` returns on to a function that writes there. -/

namespace MallocSurvey.Ltalloc

open Library

variable {threads pageSize : Nat}

/-! ## The functions -/

inductive Outcome (threads : Nat)
  /-- Null is written to. -/
  | faults
  | returns (pointer : Nat) (memory : Memory threads)

namespace Memory

variable (memory : Memory threads)

/-- `memcpy`. -/
def copy (target source count : Nat) : Memory threads :=
  { memory with bytes := fun address =>
      if target ≤ address ∧ address < target + count then memory.bytes (source + (address - target))
      else memory.bytes address }

/-- `memset` with zero. -/
def clear (target count : Nat) : Memory threads :=
  { memory with bytes := fun address =>
      if target ≤ address ∧ address < target + count then 0 else memory.bytes address }

end Memory

/-- `ltcalloc`; `allocated` is what it gets from `ltmalloc`. -/
inductive Callocs (pageSize : Nat) (memory : Memory threads) (thread : Fin threads)
    (elems size : Word) : (allocated : Nat) → Outcome threads → Prop
  | faults {next : Memory threads} :
      Call pageSize memory (.malloc thread (size * elems).toNat) [] next →
      next.state.result thread = 0 → (size * elems).toNat ≠ 0 →
      Callocs pageSize memory thread elems size 0 .faults
  | clears {next paused : Memory threads} :
      Call pageSize memory (.malloc thread (size * elems).toNat) [] next →
      next.state.result thread ≠ 0 ∨ (size * elems).toNat = 0 →
      Pause pageSize next thread [next.state.result thread] paused →
      Callocs pageSize memory thread elems size (next.state.result thread)
        (.returns (next.state.result thread)
          (paused.clear (next.state.result thread) (size * elems).toNat))

/-- `ltrealloc`; `allocated` is what it gets from `ltmalloc` if it needs that. -/
inductive Reallocs (pageSize : Nat) (memory : Memory threads) (thread : Fin threads)
    (ptr sz : Nat) : (allocated : Option Nat) → Outcome threads → Prop
  | mallocs {next : Memory threads} : ptr = 0 →
      Call pageSize memory (.malloc thread sz) [] next →
      Reallocs pageSize memory thread ptr sz (some (next.state.result thread))
        (.returns (next.state.result thread) next)
  | frees {next : Memory threads} : ptr ≠ 0 → sz = 0 →
      Call pageSize memory (.free thread ptr) [] next →
      Reallocs pageSize memory thread ptr sz none (.returns 0 next)
  | stays {osz : Nat} : ptr ≠ 0 → sz ≠ 0 → memory.state.msize ptr = some osz → sz ≤ osz →
      Reallocs pageSize memory thread ptr sz none (.returns ptr memory)
  | faults {osz : Nat} {next : Memory threads} : ptr ≠ 0 → sz ≠ 0 →
      memory.state.msize ptr = some osz → osz < sz →
      Call pageSize memory (.malloc thread sz) [ptr] next → next.state.result thread = 0 →
      Reallocs pageSize memory thread ptr sz (some 0) .faults
  | moves {osz nptr : Nat} {next paused copied after : Memory threads} : ptr ≠ 0 → sz ≠ 0 →
      memory.state.msize ptr = some osz → osz < sz →
      Call pageSize memory (.malloc thread sz) [ptr] next → next.state.result thread = nptr →
      nptr ≠ 0 → Pause pageSize next thread [ptr, nptr] paused →
      Pause pageSize (paused.copy nptr ptr osz) thread [ptr, nptr] copied →
      Call pageSize copied (.free thread ptr) [nptr] after →
      Reallocs pageSize memory thread ptr sz (some nptr) (.returns nptr after)

/-! ## The contract -/

/-- Null, or a block of so many bytes that are zero. -/
def CallocKeeps (elems size : Word) : Outcome threads → Prop
  | .faults => False
  | .returns pointer memory => pointer = 0 ∨ ∃ bytes,
      memory.state.InUse pointer bytes ∧ elems.toNat * size.toNat ≤ bytes ∧
        ∀ offset < elems.toNat * size.toNat, memory.bytes (pointer + offset) = 0

/-- Null and the old block as it was, or the block freed; or a block with the old contents
in place of the old block. -/
def ReallocKeeps (before : Memory threads) (ptr osz sz : Nat) : Outcome threads → Prop
  | .faults => False
  | .returns pointer memory =>
      if sz = 0 then pointer = 0 ∧ memory.state.Gone ptr
      else if pointer = 0 then
        memory.Holds ptr osz fun offset => before.bytes (ptr + offset)
      else
        (∃ bytes, memory.state.InUse pointer bytes ∧ sz ≤ bytes) ∧
          (∀ offset < min osz sz, memory.bytes (pointer + offset) =
            before.bytes (ptr + offset)) ∧
          (pointer ≠ ptr → memory.state.Gone ptr)

section Contract

variable {memory : Memory threads} {thread : Fin threads} {outcome : Outcome threads}

/-- What a call of `ltmalloc` returns. -/
theorem Call.served (ok : PageSize pageSize) (inv : Inv pageSize memory.state) {request : Nat}
    {blocks : List Nat} {next : Memory threads}
    (call : Call pageSize memory (.malloc thread request) blocks next) :
    Inv pageSize next.state ∧ (next.state.result thread = 0 ∨
      ∃ size, next.state.InUse (next.state.result thread) size ∧ request ≤ size) := by
  obtain ⟨newInv, serving⟩ := call.returns.serving ok inv
  obtain ⟨bytes, first, enabled, _⟩ := call.begins
  exact ⟨newInv, newInv.served_inUse enabled.1.2 call.ends serving⟩

theorem Inv.calloc_keeps_iff (ok : PageSize pageSize) (inv : Inv pageSize memory.state)
    {elems size : Word} {allocated : Nat}
    (callocs : Callocs pageSize memory thread elems size allocated outcome) :
    CallocKeeps elems size outcome ↔
      allocated ≠ 0 ∧ elems.toNat * size.toNat < 2 ^ 64 ∨
        allocated = 0 ∧ elems.toNat * size.toNat % 2 ^ 64 = 0 := by
  have isProduct : (size * elems).toNat = elems.toNat * size.toNat % 2 ^ 64 := by
    rw [BitVec.toNat_mul, Nat.mul_comm]
  cases callocs with
  | faults call isNull nonempty =>
      rw [isProduct] at nonempty
      exact ⟨False.elim, fun holds => holds.elim (fun some => some.1 rfl)
        fun empty => nonempty empty.2⟩
  | @clears next paused call writable pause =>
      obtain ⟨newInv, place⟩ := call.served ok inv
      obtain ⟨pausedInv, keeps⟩ := pause.keeps ok newInv
      generalize next.state.result thread = pointer at *
      rw [isProduct] at *
      constructor
      · rintro (isNull | ⟨bytes, inUse, enough, _⟩)
        · exact .inr ⟨isNull, writable.resolve_left (not_not.mpr isNull)⟩
        · exact .inl ⟨pausedInv.inUse_nonzero inUse, enough.trans_lt (pausedInv.inUse_lt inUse)⟩
      · rintro (⟨nonzero, inRange⟩ | ⟨isNull, _⟩)
        · rw [Nat.mod_eq_of_lt inRange] at *
          obtain ⟨bytes, inUse, enough⟩ := place.resolve_left nonzero
          have holds := keeps pointer (List.mem_singleton_self _) bytes _ ⟨inUse, fun _ _ => rfl⟩
          refine .inr ⟨bytes, holds.inUse, enough, ?_⟩
          intro offset inside
          exact if_pos ⟨by omega, by omega⟩
        · exact .inl isNull

/-- The path that copies. -/
theorem Inv.moves_keep (ok : PageSize pageSize) (inv : Inv pageSize memory.state)
    {ptr osz sz nptr : Nat} {next paused copied after : Memory threads}
    (inUse : memory.state.InUse ptr osz) (grows : osz < sz)
    (call : Call pageSize memory (.malloc thread sz) [ptr] next)
    (isResult : next.state.result thread = nptr) (nonzero : nptr ≠ 0)
    (pause : Pause pageSize next thread [ptr, nptr] paused)
    (pauseCopied : Pause pageSize (paused.copy nptr ptr osz) thread [ptr, nptr] copied)
    (frees : Call pageSize copied (.free thread ptr) [nptr] after) :
    ReallocKeeps memory ptr osz sz (.returns nptr after) := by
  have contents : memory.Holds ptr osz fun offset => memory.bytes (ptr + offset) :=
    ⟨inUse, fun _ _ => rfl⟩
  have different : nptr ≠ ptr := isResult ▸ call.apart ok inv (List.mem_singleton_self _) inUse
  obtain ⟨nextInv, place⟩ := call.served ok inv
  rw [isResult] at place
  obtain ⟨bytes, isNew, enough⟩ := place.resolve_left nonzero
  have nextHolds := (call.keeps ok inv).2 ptr (List.mem_singleton_self _) nofun _ _ contents
  obtain ⟨pausedInv, pausedKeeps⟩ := pause.keeps ok nextInv
  have pausedHolds := pausedKeeps ptr List.mem_cons_self _ _ nextHolds
  have pausedNew := pausedKeeps nptr (List.mem_cons_of_mem _ (List.mem_singleton_self _)) bytes _
    ⟨isNew, fun _ _ => rfl⟩
  -- the new block begins with the contents of the old one
  have start : (paused.copy nptr ptr osz).Holds nptr bytes fun offset =>
      (paused.copy nptr ptr osz).bytes (nptr + offset) := ⟨pausedNew.inUse, fun _ _ => rfl⟩
  have isCopy : ∀ offset < osz, (paused.copy nptr ptr osz).bytes (nptr + offset) =
      memory.bytes (ptr + offset) := by
    intro offset inside
    have isOffset : nptr + offset - nptr = offset := Nat.add_sub_cancel_left ..
    rw [← pausedHolds.bytes offset inside]
    change (if _ then paused.bytes (ptr + (nptr + offset - nptr)) else _) = _
    rw [if_pos ⟨by omega, by omega⟩, isOffset]
  obtain ⟨copiedInv, copiedKeeps⟩ := pauseCopied.keeps ok pausedInv
  have copiedNew := copiedKeeps nptr (List.mem_cons_of_mem _ (List.mem_singleton_self _)) _ _ start
  have oldStart : (paused.copy nptr ptr osz).Holds ptr osz fun offset =>
      (paused.copy nptr ptr osz).bytes (ptr + offset) := ⟨pausedHolds.inUse, fun _ _ => rfl⟩
  have copiedOld := copiedKeeps ptr List.mem_cons_self _ _ oldStart
  have final := (frees.keeps ok copiedInv).2 nptr (List.mem_singleton_self _)
    (fun equal => different (by injection equal with _ isBlock; exact isBlock.symm)) _ _ copiedNew
  rw [ReallocKeeps, if_neg (by omega), if_neg nonzero]
  refine ⟨⟨bytes, final.inUse, enough⟩, ?_, fun _ => frees.gone ok copiedInv copiedOld.inUse⟩
  intro offset inside
  have inOld : offset < osz := by omega
  rw [final.bytes offset (by omega), isCopy offset inOld]

theorem Inv.realloc_keeps_iff (ok : PageSize pageSize) (inv : Inv pageSize memory.state)
    {ptr osz sz : Nat} {allocated : Option Nat} (inUse : memory.state.InUse ptr osz)
    (reallocs : Reallocs pageSize memory thread ptr sz allocated outcome) :
    ReallocKeeps memory ptr osz sz outcome ↔ sz ≤ osz ∨ allocated ≠ some 0 := by
  have isSize := inv.msize_inUse inUse
  have nonzero := inv.inUse_nonzero inUse
  cases reallocs with
  | mallocs isNull => exact absurd isNull nonzero
  | frees _ isZero call =>
      refine iff_of_true ?_ (.inl (by omega))
      rw [ReallocKeeps, if_pos isZero]
      exact ⟨rfl, call.gone ok inv inUse⟩
  | stays _ positive usable fits =>
      have isSame := Option.some.inj (isSize.symm.trans usable)
      refine iff_of_true ?_ (.inl (by omega))
      rw [ReallocKeeps, if_neg positive, if_neg nonzero]
      exact ⟨⟨osz, inUse, by omega⟩, fun _ _ => rfl, fun moved => absurd rfl moved⟩
  | faults _ _ usable grows =>
      have isSame := Option.some.inj (isSize.symm.trans usable)
      refine iff_of_false id ?_
      rintro (fits | served)
      · omega
      · exact served rfl
  | moves _ _ usable grows call isResult isNew pause pauseCopied frees =>
      have isSame := Option.some.inj (isSize.symm.trans usable)
      rw [← isSame] at grows pauseCopied
      refine iff_of_true ?_ (.inr fun isNull => isNew (Option.some.inj isNull))
      exact inv.moves_keep ok inUse grows call isResult isNew pause pauseCopied frees

end Contract

/-- The system has a chunk for a block of 8 bytes and nothing for a larger one. -/
theorem noMemory_result : ((permittedRun blank
      [.malloc 0 0, .allocateChunk 0 chunkSize, .insertChunk 0]).bind fun state =>
    (state.malloc 0 60000).map fun waiting => (state.status 0, state.result 0,
      (state.classes 15).live.count 65856, waiting.status 0)) =
      some (.idle, 65856, 1, .allocatingLarge 65536) := by
  decide +kernel

/-- `ltrealloc` writes to null. -/
theorem noMemory_reallocs : ∃ memory : Memory 1,
    (system 1 4096).Reachable Harmless memory.state ∧ memory.state.InUse 65856 8 ∧
      Reallocs 4096 memory 0 65856 60000 (some 0) .faults := by
  obtain ⟨state, result, isNext⟩ := Option.bind_eq_some_iff.mp noMemory_result
  obtain ⟨waiting, asked, outcome⟩ := Option.map_eq_some_iff.mp isNext
  simp only [Prod.mk.injEq] at outcome
  obtain ⟨isIdle, isBlock, once, isWaiting⟩ := outcome
  have noLast : ∀ event ∈ [Event.malloc (0 : Fin 1) 0, .allocateChunk 0 chunkSize,
      .insertChunk 0], ∀ thread counted, event ≠ .giveBack thread counted := by
    intro event member thread counted isLast
    rw [isLast] at member
    simp at member
  have reached : (system 1 4096).Reachable Harmless state :=
    permittedRun_reached (fun event member _ permitted =>
      permits_harmless permitted (noLast event member)) blank_reached result
  have inv := inv_reachable ⟨by decide, by decide⟩ reached
  have isLive : 65856 ∈ (state.classes 15).live :=
    Multiset.count_pos.mp (by rw [once]; exact Nat.one_pos)
  have inUse : state.InUse 65856 8 := .inl ⟨15, isLive, by decide⟩
  have harmless : Harmless state (.malloc 0 60000) := by
    intro takes
    have isInitial := inv.unserved (requestClass 60000) (by decide)
    exact absurd (by rw [isInitial]; rfl) takes.2.2.2
  have call : Call 4096 ⟨state, fun _ => 0⟩ (.malloc (0 : Fin 1) 60000) [65856]
      ⟨waiting.finish 0 0, fun _ => 0⟩ := by
    refine ⟨⟨fun _ => 0, ⟨waiting, fun _ => 0⟩, ⟨⟨isIdle, by decide⟩, fun _ _ _ _ _ _ => rfl⟩,
      harmless, ?_, ?_⟩, finish_status 0⟩
    · change (state.malloc 0 60000).map _ = _
      rw [asked]
      rfl
    · have fails : (memorySystem 1 4096).Enabled ⟨waiting, fun _ => 0⟩
          (.step (.largeFails 0) fun _ => 0) := ⟨⟨65536, isWaiting⟩, fun _ _ _ _ _ _ => rfl⟩
      refine .single fails ⟨?_, trivial, fun _ _ => nofun⟩ rfl
      change waiting.status 0 ≠ .idle
      rw [isWaiting]
      nofun
  exact ⟨⟨state, fun _ => 0⟩, reached, inUse, .faults (by decide) (by decide)
    (inv.msize_inUse inUse) (by decide) call (finish_result 0)⟩

end MallocSurvey.Ltalloc
