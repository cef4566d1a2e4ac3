import MallocSurvey.Winnie1.Tiles

/-! # `MSize` and `Realloc`

The calls of `memcpy` are part of the result of `Realloc`. -/

namespace MallocSurvey.Winnie1

open Library

/-- `_msize`, which is for what `malloc` has returned. -/
def Pool.cmsize (pool : Pool) (p : Nat) : Option Nat :=
  (pool.malloced.find? fun region => region.start = p).map Extent.length

def msize (config : Config) (pool : Pool) (p : Nat) : Option Nat :=
  let header := p - sizeofHeader
  if config.useMallocThreshold ∧ pool.memory header ≠ 0 then pool.cmsize p
  else some (2 ^ (pool.memory (header + 1)).toNat)

/-- The arguments of `memcpy`. -/
structure Copy where
  target : Nat
  source : Nat
  length : Nat

def Copy.apply (copy : Copy) (memory : Memory) : Memory := fun place =>
  if copy.target ≤ place ∧ place < copy.target + copy.length then
    memory (copy.source + (place - copy.target))
  else memory place

/-- No byte is written to `NULL`. -/
def Pool.memcpy (pool : Pool) (copy : Copy) : Option Pool :=
  if copy.target = 0 ∧ copy.length ≠ 0 then none
  else some { pool with memory := copy.apply pool.memory }

/-- `realloc` of the standard library. -/
def Pool.crealloc (pool : Pool) (header size answer : Nat) : Option (Nat × Pool) := do
  let region ← pool.malloced.find? fun region => region.start = header
  if answer = 0 then return (0, pool)
  else
    let memory := Copy.apply ⟨answer, header, min region.length size⟩ pool.memory
    let pool ← pool.cfree header
    return (answer, { pool with memory := memory, malloced := ⟨answer, size⟩ :: pool.malloced })

def realloc (config : Config) (pool : Pool) (p size answer : Nat) :
    Option (Nat × Pool × List Copy) := do
  let header := p - sizeofHeader
  if config.useMallocThreshold ∧ pool.memory header ≠ 0 then
    if size < mallocThreshold then
      let (pNewMemory, pool) ← alloc config pool size answer
      let copy : Copy := ⟨pNewMemory, p, size⟩
      let pool ← pool.memcpy copy
      let pool ← pool.cfree header
      return (pNewMemory, pool, [copy])
    else
      let (pNewHeader, pool) ← pool.crealloc header (size + sizeofHeader) answer
      if pNewHeader = 0 then return (0, pool, [])
      else return (pNewHeader + sizeofHeader,
        { pool with memory := Function.update pool.memory pNewHeader 1 }, [])
  else
    let newListNum ← getNextPowerOfTwo (size + sizeofHeader)
    let listNum := (pool.memory (header + 1)).toNat
    if listNum ≠ newListNum then
      let oldSize := 2 ^ listNum
      let (newP, pool) ← alloc config pool size answer
      let copy : Copy := ⟨newP, p, if size ≤ oldSize then size else oldSize⟩
      let pool ← pool.memcpy copy
      let pool ← free config pool p
      return (newP, pool, [copy])
    else return (p, pool, [])

/-! ## The program -/

/-- The program that also calls `Realloc`. -/
inductive Call
  | event (event : Event)
  /-- `Realloc` for the `index`-th of the live pointers -/
  | realloc (index size answer : Nat)

/-- What `realloc` of the standard library may answer: the block may stay where it is. -/
def Moves (pool : Pool) (header size answer : Nat) : Prop :=
  answer = 0 ∨ answer + size ≤ 2 ^ 64 ∧
    ∀ region ∈ pool.osBlocks ++ pool.malloced.eraseP fun region => region.start = header,
      Extent.Apart ⟨answer, size⟩ region

/-- What the system may answer when a block is reallocated. -/
def ReallocAnswers (config : Config) (pool : Pool) (block : Block) (size answer : Nat) : Prop :=
  size + sizeofHeader < 2 ^ 64 ∧
    if block.listNum = none ∧ mallocThreshold ≤ size then
      Moves pool block.header (size + sizeofHeader) answer
    else Answers pool (systemSize config size) answer

/-- The live blocks after `Realloc`. A block that was copied is freed. -/
def relive (config : Config) (live : List Block) (index : Nat) (block : Block)
    (size result : Nat) (copies : List Copy) : List Block :=
  if copies.isEmpty then
    if result = 0 then live else ⟨result, size, block.listNum⟩ :: live.eraseIdx index
  else if result = 0 then live.eraseIdx index
  else ⟨result, size, source config size⟩ :: live.eraseIdx index

def program (config : Config) : Machine State Call where
  Init state := ∃ memory, state = ⟨.initial memory, []⟩
  Enabled state
    | .event event => Enabled config state event
    | .realloc index size answer => ∃ block, state.live[index]? = some block ∧
        ReallocAnswers config state.pool block size answer
  step state
    | .event event => step config state event
    | .realloc index size answer => do
        let block ← state.live[index]?
        let (result, pool, copies) ← realloc config state.pool block.pointer size answer
        return ⟨pool, relive config state.live index block size result copies⟩

/-! ## Payloads -/

/-- The bytes that a live pointer may be used for. -/
def Pool.payload (config : Config) (pool : Pool) (p : Nat) : Nat :=
  let header := p - sizeofHeader
  if config.useMallocThreshold ∧ pool.memory header ≠ 0 then
    ((pool.malloced.find? fun region => region.start = header).elim 0 Extent.length) - sizeofHeader
  else 2 ^ (pool.memory (header + 1)).toNat - sizeofHeader

def MSizeInside (config : Config) (pool : Pool) (p : Nat) : Prop :=
  ∃ bytes, msize config pool p = some bytes ∧ bytes ≤ pool.payload config p

/-- The copies stay in the payloads of the old block and of the new one, whose first bytes
are the old ones. -/
def StaysInside (config : Config) (pool next : Pool) (p size result : Nat)
    (copies : List Copy) : Prop :=
  (∀ copy ∈ copies, copy.source = p ∧ copy.length ≤ pool.payload config p ∧
    copy.target = result ∧ copy.length ≤ next.payload config result) ∧
  (result ≠ 0 → min (pool.payload config p) size ≤ next.payload config result ∧
    ∀ place < min (pool.payload config p) size,
      next.memory (result + place) = pool.memory (p + place))

def ReallocInside (config : Config) (pool : Pool) (p size answer : Nat) : Prop :=
  ∃ result next copies, realloc config pool p size answer = some (result, next, copies) ∧
    StaysInside config pool next p size result copies

/-- A list serves requests for blocks of its size. -/
def CanServe (pool : Pool) (listNum answer : Nat) : Prop :=
  pool.freeBlocksLists listNum ≠ 0 ∨ listNum < maxListsNum ∧
    ((pool.findBigger listNum).isSome ∨ pool.osBlocks.length ≠ maxOsBlockNum ∧ answer ≠ 0)

/-- The cases in which `Realloc` stays inside: a block from `malloc` that stays there, or
that becomes small while there is a block for it; a block of a list that keeps its list,
or that shrinks while there is a block for it. -/
def ReallocFits (pool : Pool) (block : Block) (size answer : Nat) : Prop :=
  match block.listNum with
  | none => mallocThreshold ≤ size ∨ size = 0 ∨
      ∃ listNum, getNextPowerOfTwo (size + sizeofHeader) = some listNum ∧
        CanServe pool listNum answer
  | some oldListNum => ∃ listNum, getNextPowerOfTwo (size + sizeofHeader) = some listNum ∧
      (listNum = oldListNum ∨ listNum < oldListNum ∧ (size = 0 ∨ CanServe pool listNum answer))

end MallocSurvey.Winnie1

/-! # Where the bytes of a block go -/

namespace MallocSurvey.Winnie1

open Library

/-! ## Copies -/

theorem Copy.apply_outside {copy : Copy} {memory : Memory} {place : Nat}
    (outside : place < copy.target ∨ copy.target + copy.length ≤ place) :
    copy.apply memory place = memory place := by
  unfold Copy.apply
  exact if_neg (by omega)

theorem Copy.apply_target {copy : Copy} {memory : Memory} {place : Nat}
    (inside : place < copy.length) :
    copy.apply memory (copy.target + place) = memory (copy.source + place) := by
  unfold Copy.apply
  rw [if_pos (by omega), Nat.add_sub_cancel_left]

theorem Copy.apply_empty {copy : Copy} (empty : copy.length = 0) (memory : Memory) :
    copy.apply memory = memory := by
  funext place
  exact Copy.apply_outside (by omega)

namespace Inv

variable {config : Config} {pool : Pool} {live : List Block} {free : List (FreeBlock Nat)}

/-! ## Payloads -/

/-- The table of `malloc` has the block. -/
theorem find_malloced (inv : Inv config pool live free) {block : Block} (isLive : block ∈ live)
    (isNone : block.listNum = none) :
    (pool.malloced.find? fun region => region.start = block.header) = some block.whole := by
  obtain ⟨inMalloced, unique⟩ := inv.malloced_unique isLive isNone
  cases found : pool.malloced.find? fun region => region.start = block.header with
  | none =>
      have absent := List.find?_eq_none.mp found _ inMalloced
      rw [whole_start] at absent
      exact absurd (decide_eq_true rfl) absent
  | some region =>
      have starts : region.start = block.header := by simpa using List.find?_some found
      rw [unique region (List.mem_of_find?_eq_some found) starts]

/-- The list number in the header of a block. -/
theorem header_listNum (inv : Inv config pool live free) {block : Block} (isLive : block ∈ live)
    {listNum : Nat} (isListNum : block.listNum = some listNum) :
    pool.memory block.header = 0 ∧ (pool.memory (block.header + 1)).toNat = listNum := by
  obtain ⟨_, _, inTable, isMalloced, isNamed⟩ := (inv.liveOk block isLive).pooled listNum isListNum
  refine ⟨isMalloced, ?_⟩
  rw [isNamed, UInt8.toNat_ofNat']
  exact Nat.mod_eq_of_lt (by unfold maxListsNum at inTable; omega)

theorem payload_eq (inv : Inv config pool live free) {block : Block} (isLive : block ∈ live) :
    pool.payload config block.pointer = block.whole.length - sizeofHeader := by
  change (if config.useMallocThreshold = true ∧ pool.memory block.header ≠ 0 then
      ((pool.malloced.find? fun region => region.start = block.header).elim 0 Extent.length) -
        sizeofHeader
    else 2 ^ (pool.memory (block.header + 1)).toNat - sizeofHeader) = _
  cases isListNum : block.listNum with
  | none =>
      rw [if_pos ((inv.liveOk block isLive).malloced isListNum), inv.find_malloced isLive isListNum]
      rfl
  | some listNum =>
      obtain ⟨isMalloced, isNamed⟩ := inv.header_listNum isLive isListNum
      rw [if_neg (fun marked => marked.2 isMalloced), isNamed]
      unfold Block.whole
      rw [isListNum]

/-- A block has room for what was asked for. -/
theorem size_le_payload (inv : Inv config pool live free) {block : Block} (isLive : block ∈ live) :
    block.size ≤ pool.payload config block.pointer := by
  have wide := (inv.liveOk block isLive).wide
  rw [inv.payload_eq isLive]
  omega

/-- `MSize` counts the header of a block of a list, and `_msize` does not know the pointer
of a block from `malloc`. -/
theorem msize_outside (inv : Inv config pool live free) {block : Block} (isLive : block ∈ live) :
    ¬ MSizeInside config pool block.pointer := by
  rintro ⟨bytes, reported, inside⟩
  rw [inv.payload_eq isLive] at inside
  change (if config.useMallocThreshold = true ∧ pool.memory block.header ≠ 0 then
      pool.cmsize block.pointer
    else some (2 ^ (pool.memory (block.header + 1)).toNat)) = some bytes at reported
  cases isListNum : block.listNum with
  | none =>
      rw [if_pos ((inv.liveOk block isLive).malloced isListNum)] at reported
      obtain ⟨inMalloced, _⟩ := inv.malloced_unique isLive isListNum
      obtain ⟨region, found, length⟩ := Option.map_eq_some_iff.mp reported
      have isRegion := List.mem_of_find?_eq_some found
      have starts : region.start = block.pointer := by simpa using List.find?_some found
      have nonempty := (inv.region region (List.mem_append_right _ isRegion)).2.1
      have pointer := (inv.liveOk block isLive).pointer
      have wholeStart := whole_start block
      have wholeHeader : block.header = block.pointer - sizeofHeader := rfl
      have : Std.Symm Extent.Apart := ⟨fun _ _ => Extent.Apart.symm⟩
      have apart := (List.pairwise_append.mp inv.regionsApart).2.1.forall isRegion inMalloced
        (by rintro rfl; unfold sizeofHeader at *; omega)
      unfold Extent.Apart Library.Apart sizeofHeader at *
      omega
  | some listNum =>
      obtain ⟨isMalloced, isNamed⟩ := inv.header_listNum isLive isListNum
      rw [if_neg (fun marked => marked.2 isMalloced), isNamed] at reported
      cases reported
      have positive := Nat.two_pow_pos listNum
      unfold Block.whole sizeofHeader at inside
      rw [isListNum] at inside
      dsimp only at inside
      omega

end Inv

/-! ## Whether a list serves a request -/

theorem Pool.findNewBlockForList_found {pool next : Pool} {listNum answer : Nat} {found : Bool}
    (call : pool.findNewBlockForList listNum answer = some (found, next)) :
    found = true ↔ listNum < maxListsNum ∧
      ((pool.findBigger listNum).isSome ∨ pool.osBlocks.length ≠ maxOsBlockNum ∧ answer ≠ 0) := by
  unfold Pool.findNewBlockForList at call
  by_cases inTable : maxListsNum ≤ listNum
  · rw [if_pos inTable] at call
    cases call
    exact ⟨nofun, fun serves => absurd inTable (Nat.not_le_of_lt serves.1)⟩
  · rw [if_neg inTable] at call
    have isBelow : listNum < maxListsNum := Nat.lt_of_not_le inTable
    cases bigger : pool.findBigger listNum with
    | some i =>
        rw [bigger] at call
        obtain ⟨detached, _, call⟩ := Option.bind_eq_some_iff.mp call
        obtain ⟨split, _, call⟩ := Option.bind_eq_some_iff.mp call
        cases call
        exact ⟨fun _ => ⟨isBelow, .inl rfl⟩, fun _ => rfl⟩
    | none =>
        rw [bigger] at call
        dsimp only at call
        by_cases full : pool.osBlocks.length = maxOsBlockNum
        · rw [if_pos full] at call
          cases call
          exact ⟨nofun, fun serves => by simp [full] at serves⟩
        · rw [if_neg full] at call
          by_cases isNull : answer = 0
          · rw [if_pos isNull] at call
            cases call
            exact ⟨nofun, fun serves => by simp [isNull] at serves⟩
          · rw [if_neg isNull] at call
            obtain ⟨split, _, call⟩ := Option.bind_eq_some_iff.mp call
            cases call
            exact ⟨fun _ => ⟨isBelow, .inr ⟨full, isNull⟩⟩, fun _ => rfl⟩

/-- `Alloc` returns a block of a list exactly if the list can serve it. -/
theorem Pool.allocFromLists_served {pool next : Pool} {listNum answer pointer : Nat}
    (call : pool.allocFromLists listNum answer = some (pointer, next)) :
    pointer ≠ 0 ↔ CanServe pool listNum answer := by
  unfold Pool.allocFromLists at call
  split at call
  · cases call
  · -- what is left to do with a list that has been stocked or not
    have taken : ∀ {found : Bool} {stocked : Pool},
        (if found = true then do
            let (header, pool) ← stocked.detachFirstBlock listNum
            return (header + sizeofHeader, pool)
          else return (0, stocked)) = some (pointer, next) →
        (pointer ≠ 0 ↔ found = true) := by
      intro found stocked call
      cases found with
      | false =>
          cases call
          exact ⟨fun nonzero => absurd rfl nonzero, nofun⟩
      | true =>
          obtain ⟨⟨header, detached⟩, _, call⟩ := Option.bind_eq_some_iff.mp call
          cases call
          exact ⟨fun _ => rfl, fun _ => by unfold sizeofHeader; omega⟩
    unfold CanServe
    by_cases empty : pool.freeBlocksLists listNum = 0
    · rw [if_pos empty] at call
      obtain ⟨⟨found, stocked⟩, stock, call⟩ := Option.bind_eq_some_iff.mp call
      rw [taken call, Pool.findNewBlockForList_found stock]
      exact ⟨.inr, fun serves => serves.resolve_left (fun nonempty => nonempty empty)⟩
    · rw [if_neg empty] at call
      rw [@taken true pool call]
      exact ⟨fun _ => .inl empty, fun _ => rfl⟩

/-! ## A block is copied and freed -/

/-- `Alloc` and `memcpy`, after which the old block is released. -/
def move (config : Config) (pool : Pool) (p size length answer : Nat)
    (release : Pool → Option Pool) : Option (Nat × Pool × List Copy) := do
  let (newP, pool) ← alloc config pool size answer
  let copy : Copy := ⟨newP, p, length⟩
  let pool ← pool.memcpy copy
  let pool ← release pool
  return (newP, pool, [copy])

/-- What a block that is moved leads to. -/
inductive Moved (config : Config) (pool : Pool) (block : Block) (rest : List Block)
    (size length : Nat) (next : Pool) : Nat → Prop
  | dropped {free : List (FreeBlock Nat)} : length = 0 → Inv config next rest free →
      Moved config pool block rest size length next 0
  | copied {free : List (FreeBlock Nat)} {pointer : Nat} : pointer ≠ 0 →
      Inv config next (⟨pointer, size, source config size⟩ :: rest) free →
      (∀ place < length, place < pool.payload config block.pointer →
        next.memory (pointer + place) = pool.memory (block.pointer + place)) →
      Moved config pool block rest size length next pointer

theorem Pool.memcpy_null {pool : Pool} {copy : Copy} (isNull : copy.target = 0)
    (nonempty : copy.length ≠ 0) : pool.memcpy copy = none := by
  unfold Pool.memcpy
  exact if_pos ⟨isNull, nonempty⟩

theorem Pool.memcpy_eq {pool : Pool} {copy : Copy}
    (allowed : copy.target ≠ 0 ∨ copy.length = 0) :
    pool.memcpy copy = some { pool with memory := copy.apply pool.memory } := by
  unfold Pool.memcpy
  exact if_neg (by omega)

namespace Inv

variable {config : Config} {pool : Pool} {live : List Block} {free : List (FreeBlock Nat)}

theorem free_malloced (inv : Inv config pool live free) {block : Block} (isLive : block ∈ live)
    (isNone : block.listNum = none) :
    Winnie1.free config pool block.pointer = pool.cfree block.header := by
  have pointer := (inv.liveOk block isLive).pointer
  unfold Winnie1.free
  rw [if_neg (by omega)]
  exact if_pos ((inv.liveOk block isLive).malloced isNone)

/-- `memcpy` to `NULL` is the only fault. -/
theorem move_spec (inv : Inv config pool live free) {block : Block} {rest : List Block}
    (perm : live.Perm (block :: rest)) {size length answer pointer : Nat} {served : Pool}
    (call : alloc config pool size answer = some (pointer, served))
    (allocated : Allocated config live size served pointer)
    (kept : Undisturbed live pool.memory served.memory) (within : length ≤ size)
    {release : Pool → Option Pool}
    (releases : ∀ {other : Pool} {others : List Block} {otherFree : List (FreeBlock Nat)},
      Inv config other others otherFree → block ∈ others →
      release other = Winnie1.free config other block.pointer) :
    (pointer = 0 ∧ length ≠ 0) ∧
        move config pool block.pointer size length answer release = none ∨
      (pointer ≠ 0 ∨ length = 0) ∧ ∃ next,
        move config pool block.pointer size length answer release =
          some (pointer, next, [⟨pointer, block.pointer, length⟩]) ∧
        Moved config pool block rest size length next pointer := by
  have isLive : block ∈ live := perm.mem_iff.mpr List.mem_cons_self
  unfold move
  rw [call]
  simp only [Option.bind_eq_bind, Option.bind_some]
  cases allocated with
  | refused servedInv =>
      by_cases empty : length = 0
      · have copied := @Pool.memcpy_eq served ⟨0, block.pointer, length⟩ (.inr empty)
        rw [Copy.apply_empty empty] at copied
        obtain ⟨next, nextFree, freed, nextInv, _⟩ := servedInv.free_spec perm
        rw [copied]
        simp only [Option.bind_some]
        rw [releases servedInv isLive, freed]
        exact .inr ⟨.inr empty, next, rfl, .dropped empty nextInv⟩
      · rw [@Pool.memcpy_null served ⟨0, block.pointer, length⟩ rfl empty]
        exact .inl ⟨⟨rfl, empty⟩, rfl⟩
  | served nonzero servedInv =>
      have copied := @Pool.memcpy_eq served ⟨pointer, block.pointer, length⟩ (.inl nonzero)
      have filled := servedInv.fill List.mem_cons_self
        (fun place outside => @Copy.apply_outside ⟨pointer, block.pointer, length⟩
          served.memory place (by dsimp only at outside ⊢; omega))
      obtain ⟨next, nextFree, freed, nextInv, undisturbed⟩ :=
        filled.free_spec ((perm.cons _).trans (List.Perm.swap _ _ _))
      rw [copied]
      simp only [Option.bind_some]
      rw [releases filled (List.mem_cons_of_mem _ isLive), freed]
      refine .inr ⟨.inl nonzero, next, rfl, .copied nonzero nextInv ?_⟩
      intro place inCopy inPayload
      have newOk := nextInv.liveOk _ List.mem_cons_self
      have newWide := newOk.wide
      have newPointer := newOk.pointer
      have newStart := whole_start ⟨pointer, size, source config size⟩
      have pointerOk := (inv.liveOk block isLive).pointer
      have start := whole_start block
      rw [inv.payload_eq isLive] at inPayload
      unfold Block.header sizeofHeader at *
      dsimp only at newWide newPointer newStart
      rw [undisturbed _ List.mem_cons_self (pointer + place) (by omega) (by omega)]
      have inBlock := kept block isLive (block.pointer + place) (by omega) (by omega)
      exact (Copy.apply_target inCopy).trans inBlock

/-- Bytes of new memory are written. -/
theorem scribble (inv : Inv config pool live free) {region : Extent} (fresh : Fresh pool region)
    {memory : Memory}
    (frame : ∀ place, place < region.start ∨ region.start + region.length ≤ place →
      memory place = pool.memory place) :
    Inv config { pool with memory := memory } live free := by
  refine inv.setMemory ?_ ?_
  · intro block isFree place low high
    have apart := fresh.free_apart inv isFree
    unfold Library.Apart at apart
    exact frame place (by omega)
  · intro block isLive
    have outside := fresh.header_outside inv isLive
    exact ⟨frame _ (by omega), frame _ (by omega)⟩

/-- The block from `malloc` may move; its bytes go with it. -/
theorem crealloc_spec (inv : Inv config pool live free) {block : Block} {rest : List Block}
    (perm : live.Perm (block :: rest)) (isNone : block.listNum = none) {size answer : Nat}
    (nonzero : answer ≠ 0) (moves : Moves pool block.header (size + sizeofHeader) answer) :
    ∃ moved nextFree,
      pool.crealloc block.header (size + sizeofHeader) answer = some (answer, moved) ∧
      Inv config { moved with memory := Function.update moved.memory answer 1 }
        (⟨answer + sizeofHeader, size, none⟩ :: rest) nextFree ∧
      ∀ place < min (pool.payload config block.pointer) size,
        Function.update moved.memory answer 1 (answer + sizeofHeader + place) =
          pool.memory (block.pointer + place) := by
  have isLive : block ∈ live := perm.mem_iff.mpr List.mem_cons_self
  have ok := inv.liveOk block isLive
  obtain ⟨freed, freedFree, freeing, freedInv, _⟩ := inv.free_spec perm
  rw [inv.free_malloced isLive isNone] at freeing
  have released : freed = { pool with
      malloced := pool.malloced.eraseP fun region => region.start = block.header } := by
    unfold Pool.cfree at freeing
    split at freeing
    · cases freeing
      rfl
    · cases freeing
  obtain ⟨used, _⟩ := ok.malloced isNone
  let copy : Copy := ⟨answer, block.header, min block.whole.length (size + sizeofHeader)⟩
  have fresh : Fresh freed ⟨answer, size + sizeofHeader⟩ := by
    obtain ⟨bound, apart⟩ := moves.resolve_left nonzero
    rw [released]
    exact ⟨Nat.pos_of_ne_zero nonzero, Nat.lt_add_left _ (by decide), bound, apart⟩
  have copied := freedInv.scribble fresh fun place outside =>
    @Copy.apply_outside copy freed.memory place (by
      have short := Nat.min_le_right block.whole.length (size + sizeofHeader)
      dsimp only [copy] at outside ⊢
      omega)
  have still : Fresh { freed with memory := copy.apply freed.memory }
      ⟨answer, size + sizeofHeader⟩ := ⟨fresh.nonzero, fresh.nonempty, fresh.bound, fresh.apart⟩
  have occupied := copied.occupyMalloc still used
  rw [released] at occupied
  let moved : Pool := { pool with
    memory := copy.apply pool.memory
    malloced := ⟨answer, size + sizeofHeader⟩ ::
      pool.malloced.eraseP fun region => region.start = block.header }
  refine ⟨moved, _, ?_, occupied, ?_⟩
  · unfold Pool.crealloc
    rw [inv.find_malloced isLive isNone]
    simp only [Option.bind_eq_bind, Option.bind_some]
    rw [if_neg nonzero, freeing, released]
    rfl
  · intro place inside
    rw [inv.payload_eq isLive] at inside
    have pointer := ok.pointer
    have isHeader : block.header + sizeofHeader = block.pointer := by
      unfold Block.header
      omega
    rw [Function.update_of_ne (by unfold sizeofHeader; omega), Nat.add_assoc, ← isHeader,
      Nat.add_assoc]
    exact Copy.apply_target (by dsimp only [copy]; omega)

/-- A block of a list is used for another size. -/
theorem resize (inv : Inv config pool live free) {block : Block} {rest : List Block}
    (perm : live.Perm (block :: rest)) {listNum size : Nat}
    (isListNum : block.listNum = some listNum) (fits : size + sizeofHeader ≤ 2 ^ listNum) :
    Inv config pool (⟨block.pointer, size, some listNum⟩ :: rest) free := by
  have isLive : block ∈ live := perm.mem_iff.mpr List.mem_cons_self
  have ok := inv.liveOk block isLive
  obtain ⟨_, large, inTable, isMalloced, isNamed⟩ := ok.pooled listNum isListNum
  have sameWhole : Block.whole ⟨block.pointer, size, some listNum⟩ = block.whole := by
    unfold Block.whole
    rw [isListNum]
    rfl
  have tiles := tilesOf_perm perm
  rw [tilesOf_pooled isListNum] at tiles
  have mallocs := mallocsOf_perm perm
  rw [mallocsOf_pooled isListNum] at mallocs
  exact { inv with
    tiled := by
      rw [tilesOf_pooled rfl, sameWhole]
      exact inv.tiled.perm (tiles.append_right _)
    mallocs := by
      rw [mallocsOf_pooled rfl]
      exact mallocs.symm.trans inv.mallocs
    liveOk := by
      intro other member
      rcases List.mem_cons.mp member with isNew | isOld
      · rw [isNew]
        refine ⟨ok.pointer, ?_, fun isNone => (by cases isNone)⟩
        intro otherNum isOther
        cases isOther
        exact ⟨fits, large, inTable, isMalloced, isNamed⟩
      · exact inv.liveOk other (perm.mem_iff.mpr (List.mem_cons_of_mem _ isOld)) }

end Inv

end MallocSurvey.Winnie1
