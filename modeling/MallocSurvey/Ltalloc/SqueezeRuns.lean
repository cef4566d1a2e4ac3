import MallocSurvey.Ltalloc.SystemRuns

/-! # Runs with squeezes

Whatever other threads do between the two locked sections of `ltsqueeze`, no block is
lost, and only chunks all of whose blocks were free are released, as long as each second
section finds lists that it gives back whole. -/

namespace MallocSurvey.Ltalloc

open Library

variable {threads pageSize : Nat} {state next : State threads} {thread : Fin threads}

/-- The chunks that a thread has taken away from their class. -/
def Status.freeChunks : Status → List Nat
  | .padding _ _ freeChunks | .unmapping _ _ freeChunks => freeChunks
  | _ => []

/-- The places of the blocks of a class; `detached` are those that squeezes hold. -/
structure ClassPlaced (sizeClass : Nat) (cs : ClassState threads) (lastWord : Nat → Nat)
    (detached : Multiset Nat) (tails : List Nat) : Prop where
  uncarved : TailsOf sizeClass cs.central cs.chunks lastWord tails
  places : cs.live + cs.cached + cs.central.stock sizeClass tails + detached =
    cs.blocks sizeClass
  once : (cs.blocks sizeClass).Nodup
  batches : ∀ batch ∈ cs.central.batches sizeClass, batch.length = batchSize sizeClass + 1
  freeListSize : cs.central.freeListSize = cs.central.freeList.length % 2 ^ 32

/-- Each block is in one place, in a chunk that is mapped and has not been released. -/
structure Placed (state : State threads) : Prop where
  classes : ∀ sizeClass, ∃ tails, ClassPlaced sizeClass (state.classes sizeClass)
    state.lastWord (state.detached sizeClass) tails
  mapped : ∀ sizeClass, ∀ chunk ∈ (state.classes sizeClass).chunks,
    (chunk, chunkSize) ∈ state.mapped
  notReleased : ∀ sizeClass, ∀ chunk ∈ (state.classes sizeClass).chunks,
    chunk ∉ state.padChunks ∧ ∀ thread, chunk ∉ (state.status thread).freeChunks

theorem ClassInv.placed {sizeClass : Nat} {cs : ClassState threads} {lastWord : Nat → Nat}
    {fetching : Fin threads → Bool} {detached : Multiset Nat} {tails : List Nat}
    (inv : ClassInv sizeClass cs lastWord fetching detached tails)
    (once : (cs.blocks sizeClass).Nodup) :
    ClassPlaced sizeClass cs lastWord detached tails where
  uncarved := inv.central.tails
  places := inv.ledger
  once := once
  batches := inv.central.batches_full
  freeListSize := inv.central.freeListSize

theorem Status.mem_held {status : Status} {chunk : Nat} (member : chunk ∈ status.freeChunks) :
    (chunk, chunkSize) ∈ status.held pageSize := by
  cases status with
  | padding padsz sizeClass freeChunks => exact mem_chunkRegions member
  | unmapping padsz sizeClass freeChunks => exact mem_chunkRegions member
  | _ => cases member

theorem Inv.placed (inv : Inv pageSize state) : Placed state where
  classes sizeClass := by
    by_cases served : Served sizeClass
    · obtain ⟨tails, classInv⟩ := inv.classInv sizeClass served
      have once := classInv.blocks_nodup served.geometry
      rw [classInv.ledger] at once
      exact ⟨tails, classInv.placed once⟩
    · rw [inv.unserved sizeClass served, inv.notDetached served]
      exact ⟨[], (classInv_initial sizeClass state.lastWord).placed Multiset.nodup_zero⟩
  mapped sizeClass chunk member := by
    rw [inv.ledger]
    simp [State.owned, inv.chunk_mem member]
  notReleased sizeClass chunk member :=
    ⟨fun onPad => inv.pad_ne_class onPad member rfl,
      fun _ isFree => inv.held_ne_class (Status.mem_held isFree) member rfl⟩

/-! ## The two locked sections -/

/-- The condition on a second locked section: it loses no block, and fewer than `2 ^ 32`
loose blocks are left. -/
def GivesBackAll (state : State threads) (thread : Fin threads) (counted : Bool) : Prop :=
  ∀ padsz sizeClass lists, state.status thread = .detached padsz sizeClass lists →
    LosesNothing sizeClass lists (state.classes sizeClass).central.freeList counted ∧
      looseCount sizeClass lists counted +
        (state.classes sizeClass).central.freeList.length < 2 ^ 32

end MallocSurvey.Ltalloc

/-! # A squeeze that loses a block

Another thread ends between the two locked sections. The squeeze releases a chunk and has
no block to link anew, so it hangs the loose blocks of the cache on its empty list, which
it does not read again. -/

namespace MallocSurvey.Ltalloc

open Library

variable {threads : Nat} {state next : State threads}

/-- Steps for which the system has memory. -/
def Supplied : Event threads → Prop
  | .chunkFails _ | .largeFails _ | .pageFails _ => False
  | _ => True

theorem permits_supplied {event : Event threads} (permitted : permits state event = true) :
    Supplied event := by
  cases event with
  | chunkFails thread => exact absurd permitted Bool.false_ne_true
  | largeFails thread => exact absurd permitted Bool.false_ne_true
  | pageFails thread => exact absurd permitted Bool.false_ne_true
  | _ => trivial

/-- A thread gets a block of 57344 bytes in the chunk of this number. -/
def getBlock (thread : Fin 2) (chunk : Nat) : List (Event 2) :=
  [.malloc thread 57344, .allocateChunk thread (chunk * chunkSize), .insertChunk thread]

def blockOf (chunk : Nat) : Nat := chunk * chunkSize + 8192

/-- Thread 0 allocates and frees three blocks and begins to squeeze; thread 1 has a block in
its cache. -/
def squeezingEvents : List (Event 2) :=
  getBlock 0 1 ++ getBlock 0 2 ++ getBlock 0 3 ++ getBlock 1 4 ++
    [.free 1 (blockOf 4), .free 0 (blockOf 1), .free 0 (blockOf 2), .free 0 (blockOf 3),
      .squeeze 0 0] ++ List.replicate 48 (.detachLists 0)

/-- Thread 1 ends between the two locked sections. -/
def losingEvents : List (Event 2) := [.exit 1, .releaseNext 1, .giveBack 0 true]

def losingStart : State 2 := .initial 2 (fun _ => 0) (fun _ => 0) (fun _ => none)

/-- What the first locked section detaches. -/
def losingLists : Detached := ⟨[[blockOf 1]], [], 0, chunkSize, 4⟩

theorem squeezingEvents_result : (permittedRun losingStart squeezingEvents).map
    (fun state => state.status 0) = some (.detached 0 (getSizeClass 57344) losingLists) := by
  decide +kernel

/-- One loose block is counted, and there is none. -/
theorem losingEvents_result : (permittedRun losingStart (squeezingEvents ++ losingEvents)).map
    (fun state => ((state.classes (getSizeClass 57344)).central.freeListSize,
      (state.classes (getSizeClass 57344)).central.freeList)) = some (1, []) := by
  decide +kernel

end MallocSurvey.Ltalloc
