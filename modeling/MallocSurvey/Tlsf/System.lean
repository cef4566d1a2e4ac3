import MallocSurvey.Library.Transition
import MallocSurvey.Tlsf.Aligning
import MallocSurvey.Tlsf.Checks
import MallocSurvey.Tlsf.Moving
import MallocSurvey.Tlsf.Pools

/-! # Runs of the allocator

The pools and the blocks that callers hold are kept beside the control structure. -/

namespace MallocSurvey.Tlsf

open Library

/-- A pool is its first block and its sentinel. A held block has the size asked for. -/
structure State where
  control : Control
  pools : List (Nat × Nat)
  live : List (Nat × Nat)

inductive Event
  | addPool (mem bytes : Nat)
  | removePool (pool : Nat)
  | malloc (size : Nat)
  | memalign (align size : Nat)
  | realloc (ptr size : Nat)
  | free (ptr : Nat)
  | write (place : Nat) (byte : UInt8)

namespace State

/-- The block is held unless it is null. -/
def granted (state : State) (control : Control) (ptr size : Nat) : State :=
  { state with
    control := control
    live := if ptr = 0 then state.live else (blockFromPtr ptr, size) :: state.live }

/-- The block is no longer held. -/
def dropped (state : State) (ptr : Nat) : State :=
  { state with live := state.live.eraseP fun used => used.1 = blockFromPtr ptr }

/-- A block that was moved or freed is dropped. -/
def reallocated (state : State) (control : Control) (ptr size moved : Nat) : State :=
  (if size = 0 ∨ moved ≠ 0 then state.dropped ptr else state).granted control moved size

/-- The pool is null if it was rejected. -/
def pooled (state : State) (control : Control) (mem bytes pool : Nat) : State :=
  { state with
    control := control
    pools := if pool = 0 then state.pools
      else poolOf mem (poolBytes .bits64 bytes) :: state.pools }

def unpooled (state : State) (control : Control) (pool : Nat) : State :=
  { state with
    control := control
    pools := state.pools.eraseP fun entry => entry.1 + 8 = pool }

def written (state : State) (place : Nat) (byte : UInt8) : State :=
  { state with
    control := { state.control with
      memory := Function.update state.control.memory place byte } }

def step (state : State) : Event → Option State
  | .addPool mem bytes => do
      let (control, pool) ← state.control.tlsfAddPool mem bytes
      return state.pooled control mem bytes pool
  | .removePool pool => do
      let control ← state.control.tlsfRemovePool pool
      return state.unpooled control pool
  | .malloc size => do
      let (control, ptr) ← state.control.tlsfMalloc size
      return state.granted control ptr size
  | .memalign align size => do
      let (control, ptr) ← state.control.tlsfMemalign align size
      return state.granted control ptr size
  | .realloc ptr size => do
      let (control, moved) ← state.control.tlsfRealloc ptr size
      return state.reallocated control ptr size moved
  | .free ptr => do
      let control ← state.control.tlsfFree ptr
      return { state.dropped ptr with control := control }
  | .write place byte => some (state.written place byte)

/-- The block was handed out and is not freed yet. -/
def Holds (state : State) (ptr : Nat) : Prop := ∃ used ∈ state.live, ptr = blockToPtr used.1

/-- The memory is no one else's. -/
structure Owned (state : State) (mem bytes : Nat) : Prop where
  nonzero : 16 ≤ mem
  inRange : mem + bytes ≤ 2 ^ 64
  control : Extent.Apart ⟨state.control.address, Control.tlsfSize⟩ ⟨mem, bytes⟩
  pools : ∀ pool ∈ state.pools, Extent.Apart ⟨mem, bytes⟩ (poolExtent 8 pool)

/-- What callers promise. -/
def Enabled (state : State) : Event → Prop
  | .addPool mem bytes => state.Owned mem bytes
  | .removePool pool => ∃ entry ∈ state.pools, entry.1 + 8 = pool ∧
      ∀ used ∈ state.live, ¬ (entry.1 ≤ used.1 ∧ used.1 < entry.2)
  | .malloc _ => True
  | .memalign align _ => ∃ power < 64, align = 2 ^ power
  | .realloc ptr _ => ptr = 0 ∨ state.Holds ptr
  | .free ptr => ptr = 0 ∨ state.Holds ptr
  | .write place _ => ∃ used ∈ state.live, blockToPtr used.1 ≤ place ∧
      place < blockToPtr used.1 + state.control.blockSize used.1

end State

/-- Starts with `tlsf_create`. -/
def heap : Machine State Event where
  Init state := ∃ memory mem, 0 < mem ∧ mem + Control.tlsfSize ≤ 2 ^ 64 ∧
    Control.tlsfCreate memory mem = some state.control ∧ state.pools = [] ∧ state.live = []
  Enabled := State.Enabled
  step := State.step

/-! ## The invariant -/

namespace State

/-- The sentinels count as held blocks without bytes. -/
def handed (state : State) : List (Nat × Nat) :=
  state.live ++ state.pools.map fun pool => (pool.2, 0)

structure Kept (state : State) (pieces : List Piece) (lists : Nat × Nat → List Nat) : Prop where
  rep : Rep state.pools state.control pieces lists []
  coalesced : Coalesced pieces
  handedOut : HandedOut state.handed pieces
  positive : ∀ used ∈ state.live, 0 < used.2
  nonempty : ∀ pool ∈ state.pools, pool.1 < pool.2

def Inv (state : State) : Prop := ∃ pieces lists, state.Kept pieces lists

end State

section HandedOut

variable {live other : List (Nat × Nat)} {pieces otherPieces before after lead : List Piece}
  {piece target : Piece} {size : Nat} {middle : List Piece}

/-- Only the used pieces matter. -/
theorem handedOut_congr (handedOut : HandedOut live pieces)
    (same : usedPieces otherPieces = usedPieces pieces) : HandedOut live otherPieces where
  perm := same ▸ handedOut.perm
  large := same ▸ handedOut.large

/-- A used piece has another length. -/
theorem handedOut_resized (handedOut : HandedOut live (before ++ piece :: after))
    (nodup : (live.map Prod.fst).Nodup) (isUsed : piece.free = false)
    {len : Nat} {rest : List Piece} (fits : size ≤ len)
    (sameRest : usedPieces rest = usedPieces after) :
    HandedOut ((piece.ptr, size) :: live.eraseP fun used => used.1 = piece.ptr)
      (before ++ ⟨piece.ptr, len, false⟩ :: rest) := by
  have released := handedOut.released nodup isUsed 8
  have isReleased := usedPieces_released 8 before piece after
  have isNew : usedPieces (before ++ ⟨piece.ptr, len, false⟩ :: rest) =
      usedPieces before ++ ⟨piece.ptr, len, false⟩ :: usedPieces after := by
    rw [usedPieces_append, usedPieces_cons_used rfl, sameRest]
  constructor
  · rw [isNew, List.map_append, List.map_cons, List.map_cons]
    have perm := released.perm
    rw [isReleased, List.map_append] at perm
    exact (perm.cons _).trans List.perm_middle.symm
  · intro used member
    rw [isNew]
    rcases List.mem_cons.mp member with isFirst | isOld
    · exact ⟨⟨piece.ptr, len, false⟩, by simp, by rw [isFirst], by rw [isFirst]; exact fits⟩
    · obtain ⟨other, isPiece, samePtr, large⟩ := released.large used isOld
      rw [isReleased, List.mem_append] at isPiece
      exact ⟨other, by simpa using isPiece.imp id .inr, samePtr, large⟩

end HandedOut

namespace State

variable {state : State} {pieces : List Piece} {lists : Nat × Nat → List Nat} {ptr : Nat}

/-- A held block is a used piece with bytes. -/
theorem Kept.split (kept : state.Kept pieces lists) {used : Nat × Nat} (held : used ∈ state.live) :
    ∃ before piece after, pieces = before ++ piece :: after ∧ piece.ptr = used.1 ∧
      piece.free = false ∧ used.2 ≤ piece.len ∧ piece.len ≠ 0 := by
  obtain ⟨piece, isUsed, isPtr, large⟩ :=
    kept.handedOut.large used (List.mem_append_left _ held)
  obtain ⟨member, notFree⟩ := List.mem_filter.mp isUsed
  obtain ⟨before, after, isSplit⟩ := List.append_of_mem member
  have positive := kept.positive used held
  exact ⟨before, piece, after, isSplit, isPtr, by simpa using notFree, large, by omega⟩

theorem Kept.holds (kept : state.Kept pieces lists) (holds : state.Holds ptr) :
    ∃ before piece after, pieces = before ++ piece :: after ∧ ptr = piece.ptr + 16 ∧
      piece.free = false ∧ piece.len ≠ 0 ∧ piece.ptr ∈ state.live.map Prod.fst := by
  obtain ⟨used, held, isPtr⟩ := holds
  obtain ⟨before, piece, after, isSplit, samePtr, isUsed, _, notEmpty⟩ := kept.split held
  refine ⟨before, piece, after, isSplit, ?_, isUsed, notEmpty, ?_⟩
  · rw [samePtr]
    exact isPtr
  · rw [samePtr]
    exact List.mem_map_of_mem held

theorem Kept.nodup (kept : state.Kept pieces lists) : (state.handed.map Prod.fst).Nodup :=
  kept.handedOut.nodup kept.rep.laid.ptr_nodup

/-- What is dropped is in front of the sentinels. -/
theorem handed_dropped (held : ptr ∈ state.live.map Prod.fst) :
    (state.dropped (ptr + 16)).handed = state.handed.eraseP fun used => used.1 = ptr := by
  obtain ⟨used, isLive, isPtr⟩ := List.mem_map.mp held
  have isBlock : blockFromPtr (ptr + 16) = ptr := Nat.add_sub_cancel _ _
  unfold handed dropped
  dsimp only
  rw [isBlock, List.eraseP_append_left _ _ isLive]
  exact decide_eq_true isPtr

end State

end MallocSurvey.Tlsf
