import MallocSurvey.FcMalloc.BlockLayout

/-! # The places of freed blocks -/

namespace MallocSurvey.FcMalloc.Malloc2

open Library

inductive Place
  | cache (bin position : Nat)
  | garbage (position : Nat)
  | recycle (bin slot : Nat)
deriving DecidableEq

/-- What is in a slot of a recycle bin. -/
def recycleAt (ring : Nat → Nat) (slot : Nat) : Option Nat :=
  if slot < recycleSlots ∧ ring slot ≠ 0 then some (ring slot) else none

theorem recycleAt_empty {ring : Nat → Nat} {slot : Nat} (empty : ring slot = 0) :
    recycleAt ring slot = none :=
  if_neg fun taken => taken.2 empty

theorem recycleAt_put (ring : Nat → Nat) {slot c : Nat} (inRing : slot < recycleSlots)
    (nonzero : c ≠ 0) :
    recycleAt (Function.update ring slot c) = Function.update (recycleAt ring) slot (some c) := by
  funext other
  unfold recycleAt
  by_cases same : other = slot
  · subst same
    rw [Function.update_self, Function.update_self, if_pos ⟨inRing, nonzero⟩]
  · rw [Function.update_of_ne same, Function.update_of_ne same]

namespace System

variable (system : System)

/-- The position in the garbage that the garbage collector reads next. -/
def unread : Nat :=
  match system.collecting with
  | none => system.thread.gcBegin
  | some (p, _) => p

/-- What is in a place. -/
def slots : Place → Option Nat
  | .cache bin position =>
      ringAt (system.thread.cache bin) cacheSlots (system.thread.cachePos bin)
        (system.thread.cacheEnd bin) position
  | .garbage position =>
      ringAt system.thread.garbageBin garbageSlots system.unread system.thread.gcReadEndBuffer
        position
  | .recycle bin slot => recycleAt (system.bins bin).freeBin slot

/-- A freed block goes to the cache. -/
def Caches (c : Nat) : Prop :=
  system.thread.cacheEnd (system.headerOf c).calcBinNum <
    system.thread.cachePos (system.headerOf c).calcBinNum + 32

instance (c : Nat) : Decidable (system.Caches c) := inferInstanceAs (Decidable (_ < _))

/-- The ring that takes a freed block is not full. -/
def RoomFor (c : Nat) : Prop :=
  if system.Caches c then
    system.thread.cacheEnd (system.headerOf c).calcBinNum <
      system.thread.cachePos (system.headerOf c).calcBinNum + cacheSlots
  else system.thread.gcReadEndBuffer < system.unread + garbageSlots

/-- Where a freed block goes. -/
def placeFor (c : Nat) : Place :=
  if system.Caches c then
    .cache (system.headerOf c).calcBinNum (system.thread.cacheEnd (system.headerOf c).calcBinNum)
  else .garbage system.thread.gcReadEndBuffer

/-- The order of the counters. -/
structure Counters : Prop where
  cache : ∀ bin, system.thread.cachePos bin ≤ system.thread.cacheEnd bin ∧
    system.thread.cacheEnd bin ≤ system.thread.cachePos bin + cacheSlots
  unread : system.unread ≤ system.thread.gcReadEnd
  pass : ∀ p e, system.collecting = some (p, e) → p ≤ e ∧ e ≤ system.thread.gcReadEnd
  published : system.thread.gcReadEnd ≤ system.thread.gcReadEndBuffer
  garbage : system.thread.gcReadEndBuffer ≤ system.unread + garbageSlots

end System

variable {system : System} {c : Nat}

/-- The rings and the counters that bound them decide what is where. -/
theorem slots_congr {other : System} (cache : other.thread.cache = system.thread.cache)
    (counters : (other.thread.cachePos, other.thread.cacheEnd, other.thread.gcReadEndBuffer) =
      (system.thread.cachePos, system.thread.cacheEnd, system.thread.gcReadEndBuffer))
    (garbageBin : other.thread.garbageBin = system.thread.garbageBin)
    (unread : other.unread = system.unread) (bins : other.bins = system.bins) :
    other.slots = system.slots := by
  simp only [Prod.mk.injEq] at counters
  funext place
  unfold System.slots
  rw [cache, counters.1, counters.2.1, counters.2.2, garbageBin, unread, bins]

/-- The thread and the pass decide the order. -/
theorem System.Counters.congr {other : System} (counters : system.Counters)
    (cachePos : other.thread.cachePos = system.thread.cachePos)
    (cacheEnd : other.thread.cacheEnd = system.thread.cacheEnd)
    (unread : other.unread = system.unread) (collecting : other.collecting = system.collecting)
    (published : (other.thread.gcReadEnd, other.thread.gcReadEndBuffer) =
      (system.thread.gcReadEnd, system.thread.gcReadEndBuffer)) : other.Counters := by
  obtain ⟨readEnd, buffer⟩ := Prod.mk.inj published
  refine ⟨?_, ?_, ?_, ?_, ?_⟩
  · rw [cachePos, cacheEnd]
    exact counters.cache
  · rw [unread, readEnd]
    exact counters.unread
  · rw [collecting, readEnd]
    exact counters.pass
  · rw [readEnd, buffer]
    exact counters.published
  · rw [unread, buffer]
    exact counters.garbage

/-! ## Caches -/

section Cache

variable (thread : ThreadAllocator) (bin other : Nat)

theorem pushCache_cache :
    (thread.pushCache bin c).cache bin =
        Function.update (thread.cache bin) (thread.cacheEnd bin % cacheSlots) c ∧
      (thread.pushCache bin c).cacheEnd bin = thread.cacheEnd bin + 1 :=
  ⟨Function.update_self .., Function.update_self ..⟩

theorem pushCache_other (different : other ≠ bin) :
    (thread.pushCache bin c).cache other = thread.cache other ∧
      (thread.pushCache bin c).cacheEnd other = thread.cacheEnd other :=
  ⟨Function.update_of_ne different _ _, Function.update_of_ne different _ _⟩

@[simp] theorem publish_cache : thread.publish.cache = thread.cache := by
  unfold ThreadAllocator.publish
  split <;> rfl

@[simp] theorem publish_cachePos : thread.publish.cachePos = thread.cachePos := by
  unfold ThreadAllocator.publish
  split <;> rfl

@[simp] theorem publish_cacheEnd : thread.publish.cacheEnd = thread.cacheEnd := by
  unfold ThreadAllocator.publish
  split <;> rfl

@[simp] theorem publish_garbageBin : thread.publish.garbageBin = thread.garbageBin := by
  unfold ThreadAllocator.publish
  split <;> rfl

@[simp] theorem publish_gcReadEndBuffer :
    thread.publish.gcReadEndBuffer = thread.gcReadEndBuffer := by
  unfold ThreadAllocator.publish
  split <;> rfl

@[simp] theorem publish_gcBegin : thread.publish.gcBegin = thread.gcBegin := by
  unfold ThreadAllocator.publish
  split <;> rfl

@[simp] theorem publish_nextBlock : thread.publish.nextBlock = thread.nextBlock := by
  unfold ThreadAllocator.publish
  split <;> rfl

theorem publish_gcReadEnd (ordered : thread.gcReadEnd ≤ thread.gcReadEndBuffer) :
    thread.gcReadEnd ≤ thread.publish.gcReadEnd ∧
      thread.publish.gcReadEnd ≤ thread.gcReadEndBuffer := by
  unfold ThreadAllocator.publish
  split
  · exact ⟨ordered, Nat.le_refl _⟩
  · exact ⟨Nat.le_refl _, ordered⟩

end Cache

/-! ## Putting and taking -/

theorem free_thread (caches : system.Caches c) :
    (system.free c).thread = system.thread.pushCache (system.headerOf c).calcBinNum c :=
  if_pos caches

theorem free_thread_garbage (full : ¬ system.Caches c) :
    (system.free c).thread = (system.thread.pushGarbage c).publish :=
  if_neg full

@[simp] theorem free_unread : (system.free c).unread = system.unread := by
  change (match system.collecting with
    | none => (system.thread.free (system.headerOf c).calcBinNum c).gcBegin
    | some (p, _) => p) = _
  have kept : (system.thread.free (system.headerOf c).calcBinNum c).gcBegin =
      system.thread.gcBegin := by
    unfold ThreadAllocator.free
    split
    · rfl
    · exact publish_gcBegin _
  rw [kept]
  rfl

@[simp] theorem free_nextBlock : (system.free c).thread.nextBlock = system.thread.nextBlock := by
  change (system.thread.free (system.headerOf c).calcBinNum c).nextBlock = _
  unfold ThreadAllocator.free
  split
  · rfl
  · exact publish_nextBlock _

theorem placeFor_empty : system.slots (system.placeFor c) = none := by
  unfold System.placeFor
  split
  · exact ringAt_last
  · exact ringAt_last

/-- A freed block goes to its place and nowhere else. -/
theorem free_slots (counters : system.Counters) (room : system.RoomFor c) :
    (system.free c).slots = Function.update system.slots (system.placeFor c) (some c) := by
  funext place
  unfold System.RoomFor System.placeFor at *
  by_cases caches : system.Caches c
  · rw [if_pos caches] at room ⊢
    cases place with
    | cache bin position =>
        change ringAt ((system.free c).thread.cache bin) cacheSlots
          ((system.free c).thread.cachePos bin) ((system.free c).thread.cacheEnd bin) position = _
        rw [free_thread caches]
        by_cases same : bin = (system.headerOf c).calcBinNum
        · rw [same, (pushCache_cache system.thread _).1, (pushCache_cache system.thread _).2]
          refine (congrFun (ringAt_push (counters.cache _).1 room) position).trans ?_
          by_cases isLast : position = system.thread.cacheEnd (system.headerOf c).calcBinNum
          · rw [isLast, Function.update_self, Function.update_self]
          · rw [Function.update_of_ne isLast, Function.update_of_ne]
            · rfl
            · intro equal
              cases equal
              exact isLast rfl
        · rw [(pushCache_other system.thread _ bin same).1, (pushCache_other system.thread _ bin same).2,
            Function.update_of_ne]
          · rfl
          · intro equal
            cases equal
            exact same rfl
    | garbage position =>
        rw [Function.update_of_ne (by intro equal; cases equal)]
        change ringAt (system.free c).thread.garbageBin garbageSlots (system.free c).unread
          (system.free c).thread.gcReadEndBuffer position = _
        rw [free_unread, free_thread caches]
        rfl
    | recycle bin slot =>
        rw [Function.update_of_ne (by intro equal; cases equal)]
        rfl
  · rw [if_neg caches] at room ⊢
    cases place with
    | cache bin position =>
        rw [Function.update_of_ne (by intro equal; cases equal)]
        change ringAt ((system.free c).thread.cache bin) cacheSlots
          ((system.free c).thread.cachePos bin) ((system.free c).thread.cacheEnd bin) position = _
        rw [free_thread_garbage caches, publish_cache, publish_cachePos, publish_cacheEnd]
        rfl
    | garbage position =>
        change ringAt (system.free c).thread.garbageBin garbageSlots (system.free c).unread
          (system.free c).thread.gcReadEndBuffer position = _
        rw [free_unread, free_thread_garbage caches, publish_garbageBin, publish_gcReadEndBuffer]
        have ordered := Nat.le_trans counters.unread counters.published
        refine (congrFun (ringAt_push ordered room) position).trans ?_
        by_cases isLast : position = system.thread.gcReadEndBuffer
        · rw [isLast, Function.update_self, Function.update_self]
        · rw [Function.update_of_ne isLast, Function.update_of_ne]
          · rfl
          · intro equal
            cases equal
            exact isLast rfl
    | recycle bin slot =>
        rw [Function.update_of_ne (by intro equal; cases equal)]
        rfl

theorem free_counters (counters : system.Counters) (room : system.RoomFor c) :
    (system.free c).Counters := by
  unfold System.RoomFor at room
  by_cases caches : system.Caches c
  · rw [if_pos caches] at room
    have kept := free_thread caches
    refine ⟨?_, ?_, ?_, ?_, ?_⟩
    · intro bin
      rw [kept]
      by_cases same : bin = (system.headerOf c).calcBinNum
      · rw [same, (pushCache_cache system.thread _).2]
        have ordered := (counters.cache (system.headerOf c).calcBinNum).1
        exact ⟨Nat.le_succ_of_le ordered, room⟩
      · rw [(pushCache_other system.thread _ bin same).2]
        exact counters.cache bin
    · rw [free_unread, kept]
      exact counters.unread
    · rw [kept]
      exact counters.pass
    · rw [kept]
      exact counters.published
    · rw [free_unread, kept]
      exact counters.garbage
  · rw [if_neg caches] at room
    have kept := free_thread_garbage caches
    have ordered : (system.thread.pushGarbage c).gcReadEnd ≤
        (system.thread.pushGarbage c).gcReadEndBuffer := Nat.le_succ_of_le counters.published
    have grown := publish_gcReadEnd _ ordered
    refine ⟨?_, ?_, ?_, ?_, ?_⟩
    · intro bin
      rw [kept, publish_cachePos, publish_cacheEnd]
      exact counters.cache bin
    · rw [free_unread, kept]
      exact Nat.le_trans counters.unread grown.1
    · intro p e isPass
      rw [kept]
      have pass := counters.pass p e isPass
      exact ⟨pass.1, Nat.le_trans pass.2 grown.1⟩
    · rw [kept, publish_gcReadEndBuffer]
      exact grown.2
    · rw [free_unread, kept, publish_gcReadEndBuffer]
      exact room

/-- The first block of a cache leaves it. -/
theorem takeCached_slots {bin : Nat} :
    (system.takeCached bin).2.slots =
      Function.update system.slots (.cache bin (system.thread.cachePos bin)) none := by
  funext place
  cases place with
  | cache other position =>
      change ringAt (system.thread.cache other) cacheSlots
        (Function.update system.thread.cachePos bin (system.thread.cachePos bin + 1) other)
        (system.thread.cacheEnd other) position = _
      by_cases same : other = bin
      · subst same
        rw [Function.update_self]
        refine (congrFun ringAt_pop position).trans ?_
        by_cases isFirst : position = system.thread.cachePos other
        · rw [isFirst, Function.update_self, Function.update_self]
        · rw [Function.update_of_ne isFirst, Function.update_of_ne]
          · rfl
          · intro equal
            cases equal
            exact isFirst rfl
      · rw [Function.update_of_ne same, Function.update_of_ne]
        · rfl
        · intro equal
          cases equal
          exact same rfl
  | garbage position =>
      rw [Function.update_of_ne (by intro equal; cases equal)]
      rfl
  | recycle other slot =>
      rw [Function.update_of_ne (by intro equal; cases equal)]
      rfl

end MallocSurvey.FcMalloc.Malloc2
