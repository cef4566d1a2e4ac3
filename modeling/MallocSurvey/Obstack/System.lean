import MallocSurvey.Library.Transition
import MallocSurvey.Obstack.Chain

/-! # A program that uses an obstack

The state keeps the objects that stand, the one allocated last in front, and those whose
destructor has run, the last one in front. A destructor that runs for anything else is a
fault. -/

namespace MallocSurvey.Obstack

open Library

structure Object where
  serial : Nat
  ptr : Nat
  size : Nat
  dtor : Nat
  /-- The constructor has not thrown. -/
  constructed : Bool
deriving DecidableEq

structure Ledger where
  standing : List Object
  ended : List Object

def Object.receives (object : Object) (call : BasicObstack.Call) : Bool :=
  (object.dtor, object.ptr) = call

def Ledger.endLife (ledger : Ledger) (call : BasicObstack.Call) : Option Ledger :=
  match ledger.standing.find? fun object => object.receives call with
  | some object => some ⟨ledger.standing.erase object, object :: ledger.ended⟩
  | none => none

def Ledger.endLives (ledger : Ledger) (calls : List BasicObstack.Call) : Option Ledger :=
  calls.foldlM Ledger.endLife ledger

structure State where
  stack : BasicObstack
  ledger : Ledger
  serial : Nat

inductive Event
  | alloc (type : ElementType) (constructed : Bool)
  | allocArray (type : ElementType) (numElements : Nat)
  | dealloc (obj : Nat)
  | deallocAll
  | write (place : Nat) (value : UInt8)

variable (env : Environment)

/-- The sizes do not wrap around. -/
def Fits (state : State) (type : ElementType) (numElements : Nat) : Prop :=
  state.stack.tos + offsetToAlignment state.stack.tos (alignment type) + env.headerSize +
    type.size * numElements < 2 ^ 64

/-- The place is outside the buffer or within an object. -/
def Writable (state : State) (place : Nat) : Prop :=
  place < state.stack.mem ∨ state.stack.endOfMem ≤ place ∨
    ∃ object ∈ state.ledger.standing, object.ptr ≤ place ∧ place < object.ptr + object.size

def Enabled (state : State) : Event → Prop
  | .alloc type _ =>
      type.dtor < 2 ^ 64 ∧ env.xorPtr type.dtor ≠ env.freeMarkerDtorXor ∧ Fits env state type 1
  | .allocArray type numElements =>
      env.arrayOfPrimitivesDtorXor ≠ env.freeMarkerDtorXor ∧ Fits env state type numElements
  | .dealloc obj => obj = 0 ∨ ∃ object ∈ state.ledger.standing,
      object.ptr = obj ∧ object.constructed = true
  | .deallocAll => True
  | .write place _ => Writable state place

/-- The object is on the stack if `alloc` did not return null. -/
def State.pushed (state : State) (p size dtor : Nat) (constructed : Bool)
    (stack : BasicObstack) : State :=
  if p = 0 then { state with stack := stack }
  else
    { stack := stack
      ledger := { state.ledger with
        standing := ⟨state.serial, p, size, dtor, constructed⟩ :: state.ledger.standing }
      serial := state.serial + 1 }

/-- The destructors have run. -/
def State.called (state : State) (calls : List BasicObstack.Call) (stack : BasicObstack) :
    Option State := do
  let ledger ← state.ledger.endLives calls
  return { state with stack := stack, ledger := ledger }

def step (state : State) : Event → Option State
  | .alloc type constructed =>
      let (p, stack) := state.stack.alloc env type
      some (state.pushed p type.size type.dtor constructed stack)
  | .allocArray type numElements =>
      let (p, stack) := state.stack.allocArray env type numElements
      some (state.pushed p (type.size * numElements) env.arrayOfPrimitivesDtor true stack)
  | .dealloc obj => do
      let (calls, stack) ← state.stack.dealloc env obj
      state.called calls stack
  | .deallocAll => do
      let (calls, stack) ← state.stack.deallocAll env
      state.called calls stack
  | .write place value =>
      some { state with stack := { state.stack with
        memory := Function.update state.stack.memory place value } }

/-- An empty stack over a buffer. -/
def Init (state : State) : Prop :=
  ∃ mem endOfMem memory, 0 < mem ∧ mem ≤ endOfMem ∧ endOfMem < 2 ^ 64 ∧
    state = ⟨⟨0, mem, mem, endOfMem, memory⟩, ⟨[], []⟩, 0⟩

def machine : Machine State Event := ⟨Init, Enabled env, step env⟩

/-- What an object and its chunk have in common. -/
def Object.place (object : Object) : Nat × Nat × Nat := (object.ptr, object.size, object.dtor)

def Chunk.place (chunk : Chunk) : Nat × Nat × Nat :=
  (chunk.header + env.headerSize, chunk.size, env.xorPtr chunk.xored)

/-- The chunks that are not marked. -/
def unmarked (chunks : List Chunk) : List Chunk := chunks.filter fun chunk => !chunk.destructed

structure Inv (state : State) (chunks : List Chunk) : Prop where
  rep : Rep env state.stack chunks
  top : TopStands chunks
  places : state.ledger.standing.map Object.place = (unmarked chunks).map (Chunk.place env)
  serials : ((state.ledger.standing ++ state.ledger.ended).map Object.serial).Perm
    (List.range state.serial)

variable {env} {state next : State} {chunks before after : List Chunk} {chunk : Chunk}
  {object : Object}

theorem inv_init (init : Init state) : Inv env state [] := by
  obtain ⟨mem, endOfMem, memory, positive, le, lt, isState⟩ := init
  subst isState
  refine ⟨⟨trivial, rfl, Nat.le_refl _, ?_, ?_, ?_, positive, le, lt⟩, ?_, rfl, .refl _⟩
  · exact fun _ member => absurd member List.not_mem_nil
  · exact fun _ member => absurd member List.not_mem_nil
  · exact fun _ member => absurd member List.not_mem_nil
  · exact fun _ member => absurd member (by simp)

/-! ## Objects and their chunks -/

theorem unmarked_append (left right : List Chunk) :
    unmarked (left ++ right) = unmarked left ++ unmarked right :=
  List.filter_append ..

theorem unmarked_cons_stands (stands : chunk.destructed = false) (chunks : List Chunk) :
    unmarked (chunk :: chunks) = chunk :: unmarked chunks := by
  simp [unmarked, stands]

theorem unmarked_cons_marked (isMarked : chunk.destructed = true) (chunks : List Chunk) :
    unmarked (chunk :: chunks) = unmarked chunks := by
  simp [unmarked, isMarked]

theorem unmarked_dropWhile (chunks : List Chunk) :
    unmarked (chunks.dropWhile Chunk.destructed) = unmarked chunks := by
  induction chunks with
  | nil => rfl
  | cons chunk rest induction =>
      cases isMarked : chunk.destructed with
      | true =>
          rw [List.dropWhile_cons_of_pos isMarked, induction, unmarked_cons_marked isMarked]
      | false => rw [List.dropWhile_cons_of_neg (by simp [isMarked])]

theorem topStands_dropWhile (chunks : List Chunk) :
    TopStands (chunks.dropWhile Chunk.destructed) := by
  intro chunk isTop
  have isFirst := List.head?_dropWhile_not Chunk.destructed chunks
  rw [Option.mem_def.mp isTop] at isFirst
  exact isFirst

/-- The chunk of a standing object. -/
theorem Inv.chunk_of_object (inv : Inv env state chunks) (member : object ∈ state.ledger.standing) :
    ∃ before chunk after, chunks = before ++ chunk :: after ∧ chunk.destructed = false ∧
      chunk.place env = object.place := by
  have isPlace : object.place ∈ (unmarked chunks).map (Chunk.place env) :=
    inv.places ▸ List.mem_map_of_mem member
  obtain ⟨chunk, isUnmarked, samePlace⟩ := List.mem_map.mp isPlace
  obtain ⟨isChunk, notMarked⟩ := List.mem_filter.mp isUnmarked
  obtain ⟨before, after, isSplit⟩ := List.append_of_mem isChunk
  exact ⟨before, chunk, after, isSplit, by simpa using notMarked, samePlace⟩

/-- The objects are apart, each behind its header. -/
theorem Inv.apart (inv : Inv env state chunks) :
    state.ledger.standing.Pairwise fun left right =>
      right.ptr + right.size + env.headerSize ≤ left.ptr := by
  have apart := (inv.rep.stacked.apart.sublist List.filter_sublist :
    (unmarked chunks).Pairwise _)
  have placesApart : ((unmarked chunks).map (Chunk.place env)).Pairwise
      fun left right => right.1 + right.2.1 + env.headerSize ≤ left.1 := by
    rw [List.pairwise_map]
    apply apart.imp
    intro left right below
    simp only [Chunk.place]
    omega
  rw [← inv.places, List.pairwise_map] at placesApart
  exact placesApart

theorem Inv.ptr_nodup (inv : Inv env state chunks) :
    (state.ledger.standing.map Object.ptr).Nodup := by
  have positive := sizeofChunkHeader_le env
  unfold sizeofChunkHeader at positive
  unfold List.Nodup
  rw [List.pairwise_map]
  apply inv.apart.imp
  intro left right below
  omega

theorem Inv.inside (inv : Inv env state chunks) (member : object ∈ state.ledger.standing) :
    state.stack.mem + env.headerSize ≤ object.ptr ∧
      object.ptr + object.size ≤ state.stack.tos := by
  obtain ⟨before, chunk, after, isSplit, _, samePlace⟩ := inv.chunk_of_object member
  have bounds := inv.rep.stacked.bounds (show chunk ∈ chunks by simp [isSplit])
  simp only [Chunk.place, Object.place, Prod.mk.injEq] at samePlace
  omega

/-- The object of a chunk that is not marked. -/
theorem Inv.object_of_chunk (inv : Inv env state (before ++ chunk :: after))
    (stands : chunk.destructed = false) :
    ∃ above object below, state.ledger.standing = above ++ object :: below ∧
      object.place = chunk.place env ∧
      above.map Object.place = (unmarked before).map (Chunk.place env) ∧
      below.map Object.place = (unmarked after).map (Chunk.place env) := by
  have places := inv.places
  rw [unmarked_append, unmarked_cons_stands stands, List.map_append, List.map_cons,
    List.map_eq_append_iff] at places
  obtain ⟨above, rest, isSplit, isAbove, isRest⟩ := places
  obtain ⟨object, below, isCons, isObject, isBelow⟩ := List.map_eq_cons_iff.mp isRest
  exact ⟨above, object, below, by rw [isSplit, isCons], isObject, isAbove, isBelow⟩

theorem Inv.eq_of_ptr (inv : Inv env state chunks) {other : Object}
    (member : object ∈ state.ledger.standing) (otherMember : other ∈ state.ledger.standing)
    (same : object.ptr = other.ptr) : object = other :=
  List.inj_on_of_nodup_map inv.ptr_nodup member otherMember same

end MallocSurvey.Obstack
