import MallocSurvey.Library.ByteMemory
import MallocSurvey.Library.CellList

/-! # The object stack of `obstack.hpp`

A chunk header holds the previous header, the encrypted destructor and a checksum of
both. A failed assertion, a call of a null destructor and a loop that does not end are
`none`. -/

namespace MallocSurvey.Obstack

open Library

/-- The alignment of `max_align_t`, the cookies and the addresses of the destructors. -/
structure Environment where
  maxAlign : Nat
  checksumCookie : Nat
  xorCookie : Nat
  freeMarkerDtor : Nat
  arrayOfPrimitivesDtor : Nat
  maxAlign_pos : 0 < maxAlign
  checksumCookie_lt : checksumCookie < 2 ^ 64
  xorCookie_lt : xorCookie < 2 ^ 64
  freeMarkerDtor_lt : freeMarkerDtor < 2 ^ 64
  arrayOfPrimitivesDtor_lt : arrayOfPrimitivesDtor < 2 ^ 64

/-- An element type with its size, its alignment and its destructor. -/
structure ElementType where
  size : Nat
  align : Nat
  dtor : Nat

/-- The members of `chunk_header` and its size. -/
def prevOffset : Nat := 0
def dtorOffset : Nat := 8
def checksumOffset : Nat := 16
def sizeofChunkHeader : Nat := 24

namespace Environment

def xorPtr (env : Environment) (p : Nat) : Nat := p ^^^ env.xorCookie

def freeMarkerDtorXor (env : Environment) : Nat := env.xorPtr env.freeMarkerDtor

def arrayOfPrimitivesDtorXor (env : Environment) : Nat := env.xorPtr env.arrayOfPrimitivesDtor

def makeChecksum (env : Environment) (prev xoredDtor : Nat) : Nat :=
  xoredDtor ^^^ prev ^^^ env.checksumCookie

/-- `max_aligned_sizeof<chunk_header>` -/
def headerSize (env : Environment) : Nat :=
  if sizeofChunkHeader % env.maxAlign ≠ 0 then
    sizeofChunkHeader + (env.maxAlign - sizeofChunkHeader % env.maxAlign)
  else sizeofChunkHeader

end Environment

/-- `alignment<T>`; a chunk header is aligned like a pointer. -/
def alignment (type : ElementType) : Nat := if type.align > 8 then type.align else 8

def offsetToAlignment (address alignTo : Nat) : Nat :=
  if address % alignTo ≠ 0 then alignTo - address % alignTo else 0

/-- `basic_obstack` with the buffer that it holds. -/
structure BasicObstack where
  topChunk : Nat
  tos : Nat
  mem : Nat
  endOfMem : Nat
  memory : Memory

namespace BasicObstack

variable (env : Environment)

def prev (stack : BasicObstack) (chead : Nat) : Nat :=
  loadPointer stack.memory (chead + prevOffset)

def dtor (stack : BasicObstack) (chead : Nat) : Nat :=
  loadPointer stack.memory (chead + dtorOffset)

def checksum (stack : BasicObstack) (chead : Nat) : Nat :=
  loadPointer stack.memory (chead + checksumOffset)

def setDtor (stack : BasicObstack) (chead value : Nat) : BasicObstack :=
  { stack with memory := storePointer stack.memory (chead + dtorOffset) value }

/-- `mem_available<T>(num_elements)`; one element for `mem_available<T>()`. -/
def memAvailable (stack : BasicObstack) (type : ElementType) (numElements : Nat) : Bool :=
  let padding := offsetToAlignment stack.tos (alignment type)
  (stack.tos + padding + env.headerSize + type.size * numElements) % 2 ^ 64 < stack.endOfMem

/-- The header that is written for a chunk. -/
def writeHeader (memory : Memory) (chead prev xoredDtor checksum : Nat) : Memory :=
  storePointer (storePointer (storePointer memory (chead + prevOffset) prev)
    (chead + dtorOffset) xoredDtor) (chead + checksumOffset) checksum

def allocate (stack : BasicObstack) (alignTo size xoredDtor : Nat) : BasicObstack :=
  let chead := (stack.tos + offsetToAlignment stack.tos alignTo) % 2 ^ 64
  { stack with
    topChunk := chead
    tos := (chead + env.headerSize + size) % 2 ^ 64
    memory := writeHeader stack.memory chead stack.topChunk xoredDtor
      (env.makeChecksum stack.topChunk xoredDtor) }

/-- `alloc`, null if no memory is available. The constructor has not run yet. -/
def alloc (stack : BasicObstack) (type : ElementType) : Nat × BasicObstack :=
  if stack.memAvailable env type 1 then
    let stack := stack.allocate env (alignment type) type.size (env.xorPtr type.dtor)
    (stack.topChunk + env.headerSize, stack)
  else (0, stack)

def allocArray (stack : BasicObstack) (type : ElementType) (numElements : Nat) : Nat × BasicObstack :=
  let arrayBytes := type.size * numElements % 2 ^ 64
  if stack.memAvailable env type numElements then
    let stack := stack.allocate env (alignment type) arrayBytes env.arrayOfPrimitivesDtorXor
    (stack.topChunk + env.headerSize, stack)
  else (0, stack)

def isValid (stack : BasicObstack) (chead : Nat) : Bool :=
  stack.mem ≤ chead ∧ chead ≤ stack.endOfMem ∧
    stack.checksum chead = env.makeChecksum (stack.prev chead) (stack.dtor chead)

/-- The destructor of the chunk, which is now marked. -/
def markAsDestructed (stack : BasicObstack) (chead : Nat) : Option (Nat × BasicObstack) :=
  if stack.isValid env chead then
    some (env.xorPtr (stack.dtor chead), stack.setDtor chead env.freeMarkerDtorXor)
  else none

/-- The loop of `deallocate_as_possible`. -/
def rewind : Nat → BasicObstack → Option BasicObstack
  | 0, _ => none
  | fuel + 1, stack =>
      if stack.topChunk ≠ 0 ∧ stack.dtor stack.topChunk = env.freeMarkerDtorXor then
        rewind fuel { stack with tos := stack.topChunk, topChunk := stack.prev stack.topChunk }
      else some stack

/-- Headers lie above the ones before them, so their address bounds the iterations. -/
def deallocateAsPossible (stack : BasicObstack) : Option BasicObstack :=
  rewind env (stack.topChunk + 1) stack

/-- A call of a destructor for an object. -/
abbrev Call := Nat × Nat

def pop (stack : BasicObstack) (chead : Nat) : Option (Call × BasicObstack) := do
  let (dtor, stack) ← stack.markAsDestructed env chead
  let stack ← stack.deallocateAsPossible env
  return ((dtor, chead + env.headerSize), stack)

def destruct (stack : BasicObstack) (chead : Nat) : Option (Call × BasicObstack) := do
  let (dtor, stack) ← stack.markAsDestructed env chead
  return ((dtor, chead + env.headerSize), stack)

/-- `dealloc`, with the destructors that it called. -/
def dealloc (stack : BasicObstack) (obj : Nat) : Option (List Call × BasicObstack) :=
  if obj = 0 then some ([], stack)
  else
    let chead := obj - env.headerSize
    if chead = stack.topChunk then do
      let (call, stack) ← stack.pop env chead
      return ([call], stack)
    else do
      let (call, stack) ← stack.destruct env chead
      return ([call], stack)

/-- The loop of `dealloc_all`. -/
def popAll : Nat → BasicObstack → Option (List Call × BasicObstack)
  | 0, _ => none
  | fuel + 1, stack =>
      if stack.topChunk ≠ 0 then do
        let (call, stack) ← stack.pop env stack.topChunk
        let (calls, stack) ← popAll fuel stack
        return (call :: calls, stack)
      else some ([], stack)

def deallocAll (stack : BasicObstack) : Option (List Call × BasicObstack) :=
  popAll env (stack.topChunk + 1) stack

end BasicObstack

end MallocSurvey.Obstack

/-! # The chunks of a stack

From the top chunk on the previous pointers lead through all the chunks. A chunk in the
middle may be marked, and it stays until everything above it is marked as well. -/

namespace MallocSurvey.Obstack

open Library

structure Chunk where
  header : Nat
  size : Nat
  /-- the encrypted destructor before it is marked -/
  xored : Nat
  destructed : Bool

def Chunk.marked (chunk : Chunk) : Chunk := { chunk with destructed := true }

/-- Each chunk ends where the one above it starts or before. -/
def Stacked (headerSize mem : Nat) : Nat → List Chunk → Prop
  | upper, [] => mem ≤ upper
  | upper, chunk :: rest =>
      chunk.header + (headerSize + chunk.size) ≤ upper ∧
        Stacked headerSize mem chunk.header rest

/-- The headers in memory are those of the chunks, the top one in front. -/
structure Rep (env : Environment) (stack : BasicObstack) (chunks : List Chunk) : Prop where
  linked : Linked id stack.prev (chunks.map Chunk.header)
  top : stack.topChunk = (chunks.map Chunk.header).headD 0
  stacked : Stacked env.headerSize stack.mem stack.tos chunks
  dtor : ∀ chunk ∈ chunks, stack.dtor chunk.header =
    if chunk.destructed then env.freeMarkerDtorXor else chunk.xored
  checksum : ∀ chunk ∈ chunks, stack.checksum chunk.header =
    env.makeChecksum (stack.prev chunk.header) chunk.xored
  differs : ∀ chunk ∈ chunks, chunk.xored ≠ env.freeMarkerDtorXor
  mem_pos : 0 < stack.mem
  tos_le : stack.tos ≤ stack.endOfMem
  end_lt : stack.endOfMem < 2 ^ 64

/-- The top chunk is not marked. -/
def TopStands (chunks : List Chunk) : Prop := ∀ chunk ∈ chunks.head?, chunk.destructed = false

theorem xor_lt {left right : Nat} (leftLt : left < 2 ^ 64) (rightLt : right < 2 ^ 64) :
    left ^^^ right < 2 ^ 64 :=
  Nat.xor_lt_two_pow leftLt rightLt

theorem sizeofChunkHeader_le (env : Environment) : sizeofChunkHeader ≤ env.headerSize := by
  unfold Environment.headerSize
  split <;> omega

/-- Decrypting what was encrypted. -/
theorem xorPtr_xorPtr (env : Environment) (p : Nat) : env.xorPtr (env.xorPtr p) = p := by
  unfold Environment.xorPtr
  rw [Nat.xor_assoc, Nat.xor_self, Nat.xor_zero]

section Stacked

variable {headerSize mem upper wider : Nat} {chunks before after : List Chunk} {chunk : Chunk}

theorem Stacked.mono (stacked : Stacked headerSize mem upper chunks) (le : upper ≤ wider) :
    Stacked headerSize mem wider chunks := by
  cases chunks with
  | nil => exact Nat.le_trans stacked le
  | cons chunk rest => exact ⟨Nat.le_trans stacked.1 le, stacked.2⟩

theorem Stacked.mem_le (stacked : Stacked headerSize mem upper chunks) : mem ≤ upper := by
  induction chunks generalizing upper with
  | nil => exact stacked
  | cons chunk rest induction =>
      have below := induction stacked.2
      have above := stacked.1
      omega

theorem Stacked.bounds (stacked : Stacked headerSize mem upper chunks) (member : chunk ∈ chunks) :
    mem ≤ chunk.header ∧ chunk.header + (headerSize + chunk.size) ≤ upper := by
  induction chunks generalizing upper with
  | nil => cases member
  | cons first rest induction =>
      rcases List.mem_cons.mp member with isFirst | inRest
      · rw [isFirst]
        exact ⟨stacked.2.mem_le, stacked.1⟩
      · have inner := induction stacked.2 inRest
        have outer := stacked.1
        omega

/-- The chunks are pairwise apart. -/
theorem Stacked.apart (stacked : Stacked headerSize mem upper chunks) :
    chunks.Pairwise fun left right => right.header + (headerSize + right.size) ≤ left.header := by
  induction chunks generalizing upper with
  | nil => exact .nil
  | cons first rest induction =>
      exact .cons (fun other member => (stacked.2.bounds member).2) (induction stacked.2)

theorem Stacked.marked (stacked : Stacked headerSize mem upper (before ++ chunk :: after)) :
    Stacked headerSize mem upper (before ++ chunk.marked :: after) := by
  induction before generalizing upper with
  | nil => exact stacked
  | cons first rest induction => exact ⟨stacked.1, induction stacked.2⟩

end Stacked

namespace Rep

variable {env : Environment} {stack next : BasicObstack} {chunks before after : List Chunk}
  {chunk other : Chunk}

theorem header_pos (rep : Rep env stack chunks) (member : chunk ∈ chunks) : 0 < chunk.header :=
  Nat.lt_of_lt_of_le rep.mem_pos (rep.stacked.bounds member).1

/-- The headers of different chunks are apart. -/
theorem apart_of_split (rep : Rep env stack (before ++ chunk :: after))
    (member : other ∈ before ++ after) :
    other.header + sizeofChunkHeader ≤ chunk.header ∨
      chunk.header + sizeofChunkHeader ≤ other.header := by
  have large := sizeofChunkHeader_le env
  have apart := rep.stacked.apart
  rw [List.pairwise_append, List.pairwise_cons] at apart
  obtain ⟨_, ⟨belowChunk, _⟩, belowBefore⟩ := apart
  rcases List.mem_append.mp member with inBefore | inAfter
  · have below := belowBefore other inBefore chunk List.mem_cons_self
    omega
  · have below := belowChunk other inAfter
    omega

theorem header_inj (rep : Rep env stack chunks) (member : chunk ∈ chunks)
    (otherMember : other ∈ chunks) (same : chunk.header = other.header) : chunk = other := by
  have nodup : (chunks.map Chunk.header).Nodup := by
    have positive := sizeofChunkHeader_le env
    unfold sizeofChunkHeader at positive
    unfold List.Nodup
    rw [List.pairwise_map]
    apply rep.stacked.apart.imp
    intro left right below
    omega
  exact List.inj_on_of_nodup_map nodup member otherMember same

/-- Only the headers matter. -/
theorem congr (rep : Rep env stack chunks)
    (same : ∀ chunk ∈ chunks, next.prev chunk.header = stack.prev chunk.header ∧
      next.dtor chunk.header = stack.dtor chunk.header ∧
      next.checksum chunk.header = stack.checksum chunk.header)
    (top : next.topChunk = stack.topChunk) (tos : next.tos = stack.tos)
    (mem : next.mem = stack.mem) (endOfMem : next.endOfMem = stack.endOfMem) :
    Rep env next chunks where
  linked := rep.linked.congr fun header member => by
    obtain ⟨chunk, isChunk, isHeader⟩ := List.mem_map.mp member
    rw [← isHeader]
    exact (same chunk isChunk).1
  top := top.trans rep.top
  stacked := by
    rw [tos, mem]
    exact rep.stacked
  dtor chunk member := (same chunk member).2.1.trans (rep.dtor chunk member)
  checksum chunk member := by
    rw [(same chunk member).2.2, (same chunk member).1]
    exact rep.checksum chunk member
  differs := rep.differs
  mem_pos := mem ▸ rep.mem_pos
  tos_le := by
    rw [tos, endOfMem]
    exact rep.tos_le
  end_lt := endOfMem ▸ rep.end_lt

/-! ## Pushing a chunk -/

theorem prev_writeHeader {memory : Memory} {chead prev xored checksum : Nat}
    (fits : prev < 2 ^ 64) :
    loadPointer (BasicObstack.writeHeader memory chead prev xored checksum) (chead + prevOffset) =
      prev := by
  unfold BasicObstack.writeHeader
  rw [loadPointer_storePointer_apart (by unfold Apart checksumOffset prevOffset; omega),
    loadPointer_storePointer_apart (by unfold Apart dtorOffset prevOffset; omega),
    loadPointer_storePointer fits]

theorem dtor_writeHeader {memory : Memory} {chead prev xored checksum : Nat}
    (fits : xored < 2 ^ 64) :
    loadPointer (BasicObstack.writeHeader memory chead prev xored checksum) (chead + dtorOffset) =
      xored := by
  unfold BasicObstack.writeHeader
  rw [loadPointer_storePointer_apart (by unfold Apart checksumOffset dtorOffset; omega),
    loadPointer_storePointer fits]

theorem checksum_writeHeader {memory : Memory} {chead prev xored checksum : Nat}
    (fits : checksum < 2 ^ 64) :
    loadPointer (BasicObstack.writeHeader memory chead prev xored checksum)
      (chead + checksumOffset) = checksum := by
  unfold BasicObstack.writeHeader
  rw [loadPointer_storePointer fits]

theorem writeHeader_outside {memory : Memory} {chead prev xored checksum place : Nat}
    (outside : place < chead ∨ chead + sizeofChunkHeader ≤ place) :
    BasicObstack.writeHeader memory chead prev xored checksum place = memory place := by
  unfold BasicObstack.writeHeader storePointer
  unfold sizeofChunkHeader at outside
  rw [storeBytes_outside (by unfold checksumOffset; omega),
    storeBytes_outside (by unfold dtorOffset; omega),
    storeBytes_outside (by unfold prevOffset; omega)]

/-- Memory that agrees on a header. -/
theorem fields_of_memory {header : Nat}
    (same : ∀ place, header ≤ place → place < header + sizeofChunkHeader →
      next.memory place = stack.memory place) :
    next.prev header = stack.prev header ∧ next.dtor header = stack.dtor header ∧
      next.checksum header = stack.checksum header := by
  unfold sizeofChunkHeader at same
  refine ⟨loadPointer_congr fun place above below => ?_,
    loadPointer_congr fun place above below => ?_,
    loadPointer_congr fun place above below => ?_⟩
  · exact same place (by unfold prevOffset at above; omega) (by unfold prevOffset at below; omega)
  · exact same place (by unfold dtorOffset at above; omega) (by unfold dtorOffset at below; omega)
  · exact same place (by unfold checksumOffset at above; omega)
      (by unfold checksumOffset at below; omega)

/-- A chunk above all the others. -/
theorem allocate (rep : Rep env stack chunks) {alignTo size xored : Nat}
    (available : stack.tos + offsetToAlignment stack.tos alignTo + env.headerSize + size ≤
      stack.endOfMem)
    (xoredLt : xored < 2 ^ 64) (differs : xored ≠ env.freeMarkerDtorXor) :
    Rep env (stack.allocate env alignTo size xored)
      (⟨stack.tos + offsetToAlignment stack.tos alignTo, size, xored, false⟩ :: chunks) := by
  have endLt := rep.end_lt
  have memPos := rep.mem_pos
  have memLe := rep.stacked.mem_le
  have large := sizeofChunkHeader_le env
  obtain ⟨chead, isChead⟩ : ∃ chead, stack.tos + offsetToAlignment stack.tos alignTo = chead :=
    ⟨_, rfl⟩
  have cheadMod : (stack.tos + offsetToAlignment stack.tos alignTo) % 2 ^ 64 = chead := by
    rw [Nat.mod_eq_of_lt (by omega), isChead]
  have tosMod : (chead + env.headerSize + size) % 2 ^ 64 = chead + env.headerSize + size :=
    Nat.mod_eq_of_lt (by omega)
  have topLt : stack.topChunk < 2 ^ 64 := by
    rw [rep.top]
    cases chunks with
    | nil => exact Nat.two_pow_pos 64
    | cons first rest =>
        have bounds := rep.stacked.bounds List.mem_cons_self
        have tosLe := rep.tos_le
        rw [List.map_cons, List.headD_cons]
        omega
  have checksumLt : env.makeChecksum stack.topChunk xored < 2 ^ 64 :=
    xor_lt (xor_lt xoredLt topLt) env.checksumCookie_lt
  have sameHeaders : ∀ chunk ∈ chunks,
      (stack.allocate env alignTo size xored).prev chunk.header = stack.prev chunk.header ∧
      (stack.allocate env alignTo size xored).dtor chunk.header = stack.dtor chunk.header ∧
      (stack.allocate env alignTo size xored).checksum chunk.header =
        stack.checksum chunk.header := by
    intro chunk member
    have bounds := rep.stacked.bounds member
    apply fields_of_memory
    intro place _ below
    apply writeHeader_outside
    rw [cheadMod]
    omega
  have ownPrev : (stack.allocate env alignTo size xored).prev chead = stack.topChunk := by
    unfold BasicObstack.prev BasicObstack.allocate
    simp only [cheadMod]
    exact prev_writeHeader topLt
  have ownDtor : (stack.allocate env alignTo size xored).dtor chead = xored := by
    unfold BasicObstack.dtor BasicObstack.allocate
    simp only [cheadMod]
    exact dtor_writeHeader xoredLt
  have ownChecksum : (stack.allocate env alignTo size xored).checksum chead =
      env.makeChecksum stack.topChunk xored := by
    unfold BasicObstack.checksum BasicObstack.allocate
    simp only [cheadMod]
    exact checksum_writeHeader checksumLt
  rw [isChead]
  constructor
  · refine ⟨show chead ≠ 0 by omega, ?_, ?_⟩
    · exact ownPrev.trans rep.top
    · apply rep.linked.congr
      intro header member
      obtain ⟨chunk, isChunk, isHeader⟩ := List.mem_map.mp member
      rw [← isHeader]
      exact (sameHeaders chunk isChunk).1
  · exact cheadMod
  · have isTos : (stack.allocate env alignTo size xored).tos = chead + env.headerSize + size := by
      unfold BasicObstack.allocate
      simp only [cheadMod, tosMod]
    rw [isTos]
    exact ⟨by simp only; omega, rep.stacked.mono (by simp only; omega)⟩
  · intro chunk member
    rcases List.mem_cons.mp member with isNew | isOld
    · rw [isNew]
      exact ownDtor
    · rw [(sameHeaders chunk isOld).2.1, rep.dtor chunk isOld]
  · intro chunk member
    rcases List.mem_cons.mp member with isNew | isOld
    · rw [isNew]
      simp only
      rw [ownChecksum, ownPrev]
    · rw [(sameHeaders chunk isOld).2.2, (sameHeaders chunk isOld).1, rep.checksum chunk isOld]
  · intro chunk member
    rcases List.mem_cons.mp member with isNew | isOld
    · rw [isNew]
      exact differs
    · exact rep.differs chunk isOld
  · exact memPos
  · have isTos : (stack.allocate env alignTo size xored).tos = chead + env.headerSize + size := by
      unfold BasicObstack.allocate
      simp only [cheadMod, tosMod]
    rw [isTos]
    simp only [BasicObstack.allocate]
    omega
  · exact endLt

/-! ## Marking a chunk -/

theorem isValid (rep : Rep env stack chunks) (member : chunk ∈ chunks)
    (stands : chunk.destructed = false) : stack.isValid env chunk.header = true := by
  have bounds := rep.stacked.bounds member
  have tosLe := rep.tos_le
  have isDtor := rep.dtor chunk member
  rw [stands, if_neg Bool.false_ne_true] at isDtor
  unfold BasicObstack.isValid
  rw [rep.checksum chunk member, isDtor]
  simp only [decide_eq_true_eq]
  exact ⟨bounds.1, by omega, trivial⟩

theorem fields_setDtor_apart {header other value : Nat}
    (apart : other + sizeofChunkHeader ≤ header ∨ header + sizeofChunkHeader ≤ other) :
    (stack.setDtor header value).prev other = stack.prev other ∧
      (stack.setDtor header value).dtor other = stack.dtor other ∧
      (stack.setDtor header value).checksum other = stack.checksum other := by
  apply fields_of_memory
  intro place above below
  apply storeBytes_outside
  unfold sizeofChunkHeader at *
  unfold dtorOffset
  omega

theorem fields_setDtor_self {header value : Nat} (fits : value < 2 ^ 64) :
    (stack.setDtor header value).prev header = stack.prev header ∧
      (stack.setDtor header value).dtor header = value ∧
      (stack.setDtor header value).checksum header = stack.checksum header := by
  refine ⟨?_, loadPointer_storePointer fits, ?_⟩
  · apply loadPointer_storePointer_apart
    unfold Apart dtorOffset prevOffset
    omega
  · apply loadPointer_storePointer_apart
    unfold Apart dtorOffset checksumOffset
    omega

theorem setDtor (rep : Rep env stack (before ++ chunk :: after)) :
    Rep env (stack.setDtor chunk.header env.freeMarkerDtorXor)
      (before ++ chunk.marked :: after) := by
  have headers : (before ++ chunk.marked :: after).map Chunk.header =
      (before ++ chunk :: after).map Chunk.header := by
    rw [List.map_append, List.map_append, List.map_cons, List.map_cons, Chunk.marked]
  have markerLt : env.freeMarkerDtorXor < 2 ^ 64 :=
    xor_lt env.freeMarkerDtor_lt env.xorCookie_lt
  obtain ⟨selfPrev, selfDtor, selfChecksum⟩ :=
    @fields_setDtor_self stack chunk.header _ markerLt
  have others := fun {other} (member : other ∈ before ++ after) =>
    @fields_setDtor_apart stack chunk.header other.header env.freeMarkerDtorXor
      (rep.apart_of_split member)
  have kinds : ∀ other ∈ before ++ chunk.marked :: after,
      other = chunk.marked ∨ other ∈ before ++ after := by
    intro other member
    exact List.mem_cons.mp (List.perm_middle.mem_iff.mp member)
  have isOther : ∀ other ∈ before ++ after, other ∈ before ++ chunk :: after := by
    intro other member
    exact List.perm_middle.mem_iff.mpr (List.mem_cons_of_mem _ member)
  have isChunk : chunk ∈ before ++ chunk :: after := by simp
  constructor
  · rw [headers]
    apply rep.linked.congr
    intro header member
    obtain ⟨other, isMember, isHeader⟩ := List.mem_map.mp member
    rw [← isHeader]
    rcases List.mem_cons.mp (List.perm_middle.mem_iff.mp isMember) with isSelf | member
    · rw [isSelf]
      exact selfPrev
    · exact (others member).1
  · rw [headers]
    exact rep.top
  · exact rep.stacked.marked
  · intro other member
    rcases kinds other member with isSelf | member
    · rw [isSelf]
      exact selfDtor
    · rw [(others member).2.1, rep.dtor other (isOther other member)]
  · intro other member
    rcases kinds other member with isSelf | member
    · rw [isSelf]
      simp only [Chunk.marked]
      rw [selfChecksum, selfPrev, rep.checksum chunk isChunk]
    · rw [(others member).2.2, (others member).1, rep.checksum other (isOther other member)]
  · intro other member
    rcases kinds other member with isSelf | member
    · rw [isSelf]
      exact rep.differs chunk isChunk
    · exact rep.differs other (isOther other member)
  · exact rep.mem_pos
  · exact rep.tos_le
  · exact rep.end_lt

theorem markAsDestructed (rep : Rep env stack (before ++ chunk :: after))
    (stands : chunk.destructed = false) :
    stack.markAsDestructed env chunk.header =
      some (env.xorPtr chunk.xored, stack.setDtor chunk.header env.freeMarkerDtorXor) := by
  have isChunk : chunk ∈ before ++ chunk :: after := by simp
  have isDtor := rep.dtor chunk isChunk
  rw [stands, if_neg Bool.false_ne_true] at isDtor
  rw [BasicObstack.markAsDestructed, if_pos (rep.isValid isChunk stands), isDtor]

/-! ## Rewinding -/

/-- The stack without its top chunk. -/
def dropTop (stack : BasicObstack) : BasicObstack :=
  { stack with tos := stack.topChunk, topChunk := stack.prev stack.topChunk }

theorem top_eq (rep : Rep env stack (chunk :: chunks)) : stack.topChunk = chunk.header := by
  rw [rep.top, List.map_cons, List.headD_cons]

@[simp] theorem dropTop_prev (stack : BasicObstack) : (dropTop stack).prev = stack.prev := by
  unfold BasicObstack.prev dropTop
  simp only

@[simp] theorem dropTop_dtor (stack : BasicObstack) : (dropTop stack).dtor = stack.dtor := by
  unfold BasicObstack.dtor dropTop
  simp only

@[simp] theorem dropTop_checksum (stack : BasicObstack) :
    (dropTop stack).checksum = stack.checksum := by
  unfold BasicObstack.checksum dropTop
  simp only

theorem dropTop_rep (rep : Rep env stack (chunk :: chunks)) : Rep env (dropTop stack) chunks := by
  have isTop := rep.top_eq
  have bounds := rep.stacked.bounds List.mem_cons_self
  have tosLe := rep.tos_le
  have isMem : (dropTop stack).mem = stack.mem := by unfold dropTop; simp only
  have isTos : (dropTop stack).tos = chunk.header := by unfold dropTop; simp only [isTop]
  have isEnd : (dropTop stack).endOfMem = stack.endOfMem := by unfold dropTop; simp only
  constructor
  · rw [dropTop_prev]
    exact rep.linked.2.2
  · have isPrev : (dropTop stack).topChunk = stack.prev chunk.header := by
      unfold dropTop
      simp only [isTop]
    rw [isPrev]
    exact rep.linked.2.1
  · rw [isMem, isTos]
    exact rep.stacked.2
  · rw [dropTop_dtor]
    exact fun other member => rep.dtor other (List.mem_cons_of_mem _ member)
  · rw [dropTop_checksum, dropTop_prev]
    exact fun other member => rep.checksum other (List.mem_cons_of_mem _ member)
  · exact fun other member => rep.differs other (List.mem_cons_of_mem _ member)
  · rw [isMem]
    exact rep.mem_pos
  · rw [isTos, isEnd]
    omega
  · rw [isEnd]
    exact rep.end_lt

theorem dropTop_lt (rep : Rep env stack (chunk :: chunks)) :
    (dropTop stack).topChunk < stack.topChunk := by
  rw [rep.dropTop_rep.top, rep.top_eq]
  cases chunks with
  | nil => exact rep.header_pos List.mem_cons_self
  | cons second rest =>
      have below := rep.stacked.2.1
      have positive := sizeofChunkHeader_le env
      unfold sizeofChunkHeader at positive
      rw [List.map_cons, List.headD_cons]
      omega

/-- The marked chunks at the top go, and `tos` is the header of the last of them. -/
theorem rewind (rep : Rep env stack chunks) {fuel : Nat} (enough : stack.topChunk < fuel) :
    ∃ next, stack.rewind env fuel = some next ∧
      Rep env next (chunks.dropWhile Chunk.destructed) ∧
      next.tos = (((chunks.takeWhile Chunk.destructed).getLast?).map Chunk.header).getD stack.tos ∧
      next.memory = stack.memory := by
  induction chunks generalizing stack fuel with
  | nil =>
      obtain ⟨fuel, rfl⟩ := Nat.exists_eq_succ_of_ne_zero (Nat.ne_zero_of_lt enough)
      refine ⟨stack, ?_, rep, rfl, rfl⟩
      exact if_neg fun both => both.1 rep.top
  | cons chunk rest induction =>
      obtain ⟨fuel, rfl⟩ := Nat.exists_eq_succ_of_ne_zero (Nat.ne_zero_of_lt enough)
      have isDtor := rep.dtor chunk List.mem_cons_self
      have isTop := rep.top_eq
      have nonzero := rep.header_pos List.mem_cons_self
      cases isMarked : chunk.destructed with
      | true =>
          have smaller := rep.dropTop_lt
          obtain ⟨next, result, newRep, isTos, memory⟩ :=
            induction rep.dropTop_rep (show (dropTop stack).topChunk < fuel by omega)
          rw [isMarked, if_pos rfl, ← isTop] at isDtor
          refine ⟨next, ?_, ?_, ?_, memory⟩
          · rw [BasicObstack.rewind, if_pos ⟨by omega, isDtor⟩]
            exact result
          · rw [List.dropWhile_cons_of_pos isMarked]
            exact newRep
          · rw [isTos, List.takeWhile_cons_of_pos isMarked, List.getLast?_cons]
            cases (rest.takeWhile Chunk.destructed).getLast? with
            | none => exact isTop
            | some last => rfl
      | false =>
          rw [isMarked, if_neg Bool.false_ne_true, ← isTop] at isDtor
          refine ⟨stack, ?_, ?_, ?_, rfl⟩
          · rw [BasicObstack.rewind, if_neg]
            rintro ⟨_, isMarker⟩
            exact rep.differs chunk List.mem_cons_self (isDtor.symm.trans isMarker)
          · rw [List.dropWhile_cons_of_neg (by simp [isMarked])]
            exact rep
          · rw [List.takeWhile_cons_of_neg (by simp [isMarked])]
            rfl

/-- `pop` for a chunk that is not marked. -/
theorem pop (rep : Rep env stack (before ++ chunk :: after)) (stands : chunk.destructed = false) :
    ∃ next, stack.pop env chunk.header =
        some ((env.xorPtr chunk.xored, chunk.header + env.headerSize), next) ∧
      Rep env next ((before ++ chunk.marked :: after).dropWhile Chunk.destructed) ∧
      next.tos = ((((before ++ chunk.marked :: after).takeWhile Chunk.destructed).getLast?).map
        Chunk.header).getD stack.tos := by
  obtain ⟨next, result, newRep, isTos, _⟩ := rep.setDtor.rewind (Nat.lt_succ_self _)
  refine ⟨next, ?_, newRep, isTos⟩
  rw [BasicObstack.pop, rep.markAsDestructed stands]
  simp only [Option.bind_eq_bind, Option.bind_some, BasicObstack.deallocateAsPossible, result,
    Option.pure_def]

/-- `destruct` for a chunk that is not marked. -/
theorem destruct (rep : Rep env stack (before ++ chunk :: after))
    (stands : chunk.destructed = false) :
    stack.destruct env chunk.header =
      some ((env.xorPtr chunk.xored, chunk.header + env.headerSize),
        stack.setDtor chunk.header env.freeMarkerDtorXor) := by
  rw [BasicObstack.destruct, rep.markAsDestructed stands]
  simp only [Option.bind_eq_bind, Option.bind_some, Option.pure_def]

end Rep

end MallocSurvey.Obstack
