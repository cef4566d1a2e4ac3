import MallocSurvey.Obstack.System

/-! # The calls of a program

Pushing a chunk, marking one and popping all of them keep the objects and the chunks in
step. -/

namespace MallocSurvey.Obstack

open Library

variable {env : Environment} {state next : State} {chunks before after : List Chunk}
  {chunk : Chunk} {object : Object}

/-! ## Allocation -/

theorem inv_pushed (inv : Inv env state chunks) {alignTo size dtor : Nat} (constructed : Bool)
    (available : state.stack.tos + offsetToAlignment state.stack.tos alignTo + env.headerSize +
      size ≤ state.stack.endOfMem)
    (dtorLt : dtor < 2 ^ 64) (differs : env.xorPtr dtor ≠ env.freeMarkerDtorXor)
    {stack : BasicObstack}
    (isStack : state.stack.allocate env alignTo size (env.xorPtr dtor) = stack) :
    Inv env (state.pushed (stack.topChunk + env.headerSize) size dtor constructed stack)
        (⟨state.stack.tos + offsetToAlignment state.stack.tos alignTo, size, env.xorPtr dtor,
          false⟩ :: chunks) := by
  have xoredLt : env.xorPtr dtor < 2 ^ 64 := xor_lt dtorLt env.xorCookie_lt
  have rep := inv.rep.allocate available xoredLt differs
  rw [isStack] at rep
  have isTop := rep.top_eq
  have positive := rep.header_pos List.mem_cons_self
  rw [← isTop] at positive
  rw [State.pushed, if_neg (by omega)]
  refine ⟨rep, ?_, ?_, ?_⟩
  · intro first isFirst
    cases isFirst
    rfl
  · rw [List.map_cons, inv.places, unmarked_cons_stands rfl, List.map_cons]
    simp only [Object.place, Chunk.place, xorPtr_xorPtr, isTop]
  · rw [List.cons_append, List.map_cons, List.range_succ]
    exact (inv.serials.cons _).trans (List.perm_append_singleton _ _).symm

theorem memAvailable_le {stack : BasicObstack} {type : ElementType} {numElements : Nat}
    (available : stack.memAvailable env type numElements = true)
    (fits : stack.tos + offsetToAlignment stack.tos (alignment type) + env.headerSize +
      type.size * numElements < 2 ^ 64) :
    stack.tos + offsetToAlignment stack.tos (alignment type) + env.headerSize +
      type.size * numElements ≤ stack.endOfMem := by
  unfold BasicObstack.memAvailable at available
  dsimp only at available
  rw [Nat.mod_eq_of_lt fits] at available
  exact Nat.le_of_lt (of_decide_eq_true available)

theorem inv_alloc (inv : Inv env state chunks) {type : ElementType} {constructed : Bool}
    (enabled : Enabled env state (.alloc type constructed)) :
    ∃ next newChunks, step env state (.alloc type constructed) = some next ∧
      Inv env next newChunks := by
  obtain ⟨dtorLt, differs, fits⟩ := enabled
  unfold Fits at fits
  simp only [step, BasicObstack.alloc]
  by_cases available : state.stack.memAvailable env type 1 = true
  · have room := memAvailable_le available fits
    rw [Nat.mul_one] at room
    rw [if_pos available]
    exact ⟨_, _, rfl, inv_pushed inv constructed room dtorLt differs rfl⟩
  · rw [if_neg available]
    exact ⟨state, chunks, rfl, inv⟩

theorem inv_allocArray (inv : Inv env state chunks) {type : ElementType} {numElements : Nat}
    (enabled : Enabled env state (.allocArray type numElements)) :
    ∃ next newChunks, step env state (.allocArray type numElements) = some next ∧
      Inv env next newChunks := by
  obtain ⟨differs, fits⟩ := enabled
  unfold Fits at fits
  simp only [step, BasicObstack.allocArray]
  by_cases available : state.stack.memAvailable env type numElements = true
  · have room := memAvailable_le available fits
    have arrayBytes : type.size * numElements % 2 ^ 64 = type.size * numElements :=
      Nat.mod_eq_of_lt (by omega)
    rw [if_pos available, arrayBytes]
    exact ⟨_, _, rfl, inv_pushed inv true room env.arrayOfPrimitivesDtor_lt differs rfl⟩
  · rw [if_neg available]
    exact ⟨state, chunks, rfl, inv⟩

/-- The program writes to an object or outside the buffer. -/
theorem inv_write (inv : Inv env state chunks) {place : Nat} {value : UInt8}
    (writable : Writable state place) :
    ∃ next, step env state (.write place value) = some next ∧ Inv env next chunks := by
  have outside : ∀ chunk ∈ chunks, place < chunk.header ∨
      chunk.header + sizeofChunkHeader ≤ place := by
    intro chunk member
    have bounds := inv.rep.stacked.bounds member
    have large := sizeofChunkHeader_le env
    have tosLe := inv.rep.tos_le
    rcases writable with low | high | ⟨object, isStanding, above, below⟩
    · omega
    · omega
    · obtain ⟨before, own, after, isSplit, _, samePlace⟩ := inv.chunk_of_object isStanding
      simp only [Chunk.place, Object.place, Prod.mk.injEq] at samePlace
      have apart := inv.rep.stacked.apart
      rw [isSplit] at apart member
      rw [List.pairwise_append, List.pairwise_cons] at apart
      obtain ⟨_, ⟨belowOwn, _⟩, belowBefore⟩ := apart
      rcases List.mem_append.mp member with inBefore | inRest
      · have ownBelow := belowBefore chunk inBefore own List.mem_cons_self
        omega
      · rcases List.mem_cons.mp inRest with isOwn | inAfter
        · rw [isOwn]
          omega
        · have otherBelow := belowOwn chunk inAfter
          omega
  refine ⟨_, rfl, ⟨inv.rep.congr ?_ rfl rfl rfl rfl, inv.top, inv.places, inv.serials⟩⟩
  intro chunk member
  apply Rep.fields_of_memory
  intro other above below
  have apart := outside chunk member
  exact Function.update_of_ne (by omega) _ _

/-! ## The destructor of one object -/

theorem endLife_eq (inv : Inv env state chunks) (member : object ∈ state.ledger.standing) :
    state.ledger.endLives [(object.dtor, object.ptr)] =
      some ⟨state.ledger.standing.erase object, object :: state.ledger.ended⟩ := by
  have found : state.ledger.standing.find? (fun other =>
      other.receives (object.dtor, object.ptr)) = some object := by
    cases isFound : state.ledger.standing.find? (fun other =>
        other.receives (object.dtor, object.ptr)) with
    | none =>
        have notReceived := List.find?_eq_none.mp isFound object member
        exact absurd (decide_eq_true rfl) notReceived
    | some other =>
        have received := List.find?_some isFound
        simp only [Object.receives, decide_eq_true_eq, Prod.mk.injEq] at received
        exact congrArg some (inv.eq_of_ptr (List.mem_of_find?_eq_some isFound) member received.2)
  simp only [Ledger.endLives, List.foldlM_cons, List.foldlM_nil, Ledger.endLife, found,
    Option.bind_eq_bind, Option.bind_some, Option.pure_def]

/-- The ledger and the chunks after the destructor of an object has run. -/
theorem inv_ended (inv : Inv env state (before ++ chunk :: after)) {above below : List Object}
    (isSplit : state.ledger.standing = above ++ object :: below)
    (isAbove : above.map Object.place = (unmarked before).map (Chunk.place env))
    (isBelow : below.map Object.place = (unmarked after).map (Chunk.place env))
    {stack : BasicObstack} {newChunks : List Chunk} (rep : Rep env stack newChunks)
    (top : TopStands newChunks)
    (sameUnmarked : unmarked newChunks = unmarked before ++ unmarked after) :
    Inv env ⟨stack, ⟨state.ledger.standing.erase object, object :: state.ledger.ended⟩,
      state.serial⟩ newChunks := by
  have nodup : state.ledger.standing.Nodup := List.Nodup.of_map _ inv.ptr_nodup
  have erased : state.ledger.standing.erase object = above ++ below := by
    rw [isSplit] at nodup ⊢
    have fresh : object ∉ above := by
      intro inAbove
      exact (List.nodup_append.mp nodup).2.2 object inAbove object List.mem_cons_self rfl
    rw [List.erase_append_right _ fresh, List.erase_cons_head]
  refine ⟨rep, top, ?_, ?_⟩
  · simp only
    rw [erased, sameUnmarked, List.map_append, List.map_append, isAbove, isBelow]
  · have serials := inv.serials
    simp only
    rw [erased]
    rw [isSplit, List.append_assoc, List.cons_append] at serials
    refine (List.Perm.map _ ?_).trans serials
    rw [List.append_assoc]
    exact List.Perm.append_left above List.perm_middle

/-- The object of a header is gone. -/
def Gone (env : Environment) (state : State) (header : Nat) : Bool :=
  header + env.headerSize ∉ state.ledger.standing.map Object.ptr

/-- The chunks of the objects that are gone are taken off the top, and `tos` is the header
of the lowest of them. -/
structure Rewound (env : Environment) (state next : State) (headers : List Nat) : Prop where
  linked : Linked id state.stack.prev headers
  top : state.stack.topChunk = headers.headD 0
  newTop : next.stack.topChunk = (headers.dropWhile (Gone env next)).headD 0
  newTos : next.stack.tos =
    ((headers.takeWhile (Gone env next)).getLast?).getD state.stack.tos

theorem takeWhile_congr {Element : Type} {left right : Element → Bool} {elements : List Element}
    (same : ∀ element ∈ elements, left element = right element) :
    elements.takeWhile left = elements.takeWhile right ∧
      elements.dropWhile left = elements.dropWhile right := by
  induction elements with
  | nil => exact ⟨rfl, rfl⟩
  | cons first rest induction =>
      have sameRest := induction fun element member => same element (List.mem_cons_of_mem _ member)
      rw [List.takeWhile_cons, List.takeWhile_cons, List.dropWhile_cons, List.dropWhile_cons,
        same first List.mem_cons_self, sameRest.1, sameRest.2]
      exact ⟨rfl, rfl⟩

theorem gone_eq {stack : BasicObstack} (rep : Rep env stack chunks)
    (places : next.ledger.standing.map Object.place = (unmarked chunks).map (Chunk.place env))
    (member : chunk ∈ chunks) : Gone env next chunk.header = chunk.destructed := by
  have ptrs : next.ledger.standing.map Object.ptr =
      (unmarked chunks).map fun chunk => chunk.header + env.headerSize := by
    have mapped := congrArg (List.map Prod.fst) places
    rwa [List.map_map, List.map_map] at mapped
  unfold Gone
  rw [ptrs]
  cases isMarked : chunk.destructed with
  | false =>
      have isUnmarked : chunk ∈ unmarked chunks := List.mem_filter.mpr ⟨member, by simp [isMarked]⟩
      rw [decide_eq_false_iff_not, not_not]
      exact List.mem_map_of_mem isUnmarked
  | true =>
      rw [decide_eq_true_eq]
      intro isPtr
      obtain ⟨other, isUnmarked, samePtr⟩ := List.mem_map.mp isPtr
      obtain ⟨isChunk, notMarked⟩ := List.mem_filter.mp isUnmarked
      have same := rep.header_inj isChunk member (Nat.add_right_cancel samePtr)
      rw [same, isMarked] at notMarked
      cases notMarked

theorem rewound {marks : List Chunk} {stack : BasicObstack} (rep : Rep env state.stack chunks)
    (marked : Rep env stack marks) (headers : marks.map Chunk.header = chunks.map Chunk.header)
    (newInv : Inv env next (marks.dropWhile Chunk.destructed))
    (isTos : next.stack.tos = (((marks.takeWhile Chunk.destructed).getLast?).map
      Chunk.header).getD state.stack.tos) : Rewound env state next (chunks.map Chunk.header) := by
  have places := newInv.places
  rw [unmarked_dropWhile] at places
  have same := takeWhile_congr fun own isOwn => gone_eq marked places isOwn
  have sameTake : marks.takeWhile (Gone env next ∘ Chunk.header) =
      marks.takeWhile Chunk.destructed := same.1
  have sameDrop : marks.dropWhile (Gone env next ∘ Chunk.header) =
      marks.dropWhile Chunk.destructed := same.2
  refine ⟨rep.linked, rep.top, ?_, ?_⟩
  · rw [← headers, List.dropWhile_map, sameDrop]
    exact newInv.rep.top
  · rw [← headers, List.takeWhile_map, sameTake, List.getLast?_map]
    exact isTos

/-- `dealloc` for an object that stands. -/
theorem inv_dealloc (inv : Inv env state chunks) (member : object ∈ state.ledger.standing) :
    ∃ next newChunks, step env state (.dealloc object.ptr) = some next ∧
      Inv env next newChunks ∧
      next.ledger =
        ⟨state.ledger.standing.erase object, object :: state.ledger.ended⟩ ∧
      (object.ptr = state.stack.topChunk + env.headerSize →
        Rewound env state next (chunks.map Chunk.header)) := by
  obtain ⟨before, chunk, after, isSplit, stands, samePlace⟩ := inv.chunk_of_object member
  subst isSplit
  obtain ⟨above, other, below, isStanding, otherPlace, isAbove, isBelow⟩ :=
    inv.object_of_chunk stands
  have isSame : other = object := by
    have samePtr := congrArg Prod.fst (otherPlace.trans samePlace)
    exact inv.eq_of_ptr (by simp [isStanding]) member samePtr
  subst isSame
  have ended := endLife_eq inv member
  have isCall : (env.xorPtr chunk.xored, chunk.header + env.headerSize) = (other.dtor, other.ptr) := by
    simp only [Chunk.place, Object.place, Prod.mk.injEq] at samePlace
    rw [samePlace.1, samePlace.2.2]
  have isPtr : other.ptr = chunk.header + env.headerSize := (Prod.mk.inj isCall).2.symm
  have positive : 0 < env.headerSize := by
    have large := sizeofChunkHeader_le env
    unfold sizeofChunkHeader at large
    omega
  have isHeader : other.ptr - env.headerSize = chunk.header := by omega
  have nonzero : other.ptr ≠ 0 := by omega
  have rep := inv.rep
  by_cases isTop : chunk.header = state.stack.topChunk
  · have noneBefore : before = [] := by
      cases before with
      | nil => rfl
      | cons first rest =>
          have firstTop := rep.top_eq
          have apart := rep.stacked.apart
          rw [List.cons_append, List.pairwise_cons] at apart
          have below := apart.1 chunk (by simp)
          omega
    subst noneBefore
    rw [List.nil_append] at rep
    obtain ⟨stack, result, newRep, isTos⟩ := @Rep.pop env state.stack [] after chunk rep stands
    have newInv := inv_ended inv isStanding isAbove isBelow newRep (topStands_dropWhile _) (by
      rw [unmarked_dropWhile, List.nil_append, unmarked_cons_marked rfl]
      rfl)
    refine ⟨_, _, ?_, newInv, rfl, ?_⟩
    · simp only [step, BasicObstack.dealloc]
      rw [if_neg nonzero, isHeader, if_pos isTop, result, isCall]
      simp only [Option.bind_eq_bind, Option.bind_some, Option.pure_def, State.called, ended]
    · intro _
      exact rewound inv.rep (@Rep.setDtor env state.stack [] after chunk rep) rfl newInv isTos
  · have newTop : TopStands (before ++ chunk.marked :: after) := by
      cases before with
      | nil => exact absurd rep.top_eq.symm isTop
      | cons first rest => exact inv.top
    have newInv := inv_ended inv isStanding isAbove isBelow rep.setDtor newTop (by
      rw [unmarked_append, unmarked_cons_marked rfl])
    refine ⟨_, _, ?_, newInv, rfl, ?_⟩
    · simp only [step, BasicObstack.dealloc]
      rw [if_neg nonzero, isHeader, if_neg isTop, rep.destruct stands, isCall]
      simp only [Option.bind_eq_bind, Option.bind_some, Option.pure_def, State.called, ended]
    · intro atTop
      exact absurd (by omega) isTop

/-! ## All destructors -/

def Object.call (object : Object) : BasicObstack.Call := (object.dtor, object.ptr)

def Chunk.call (env : Environment) (chunk : Chunk) : BasicObstack.Call :=
  (env.xorPtr chunk.xored, chunk.header + env.headerSize)

theorem popAll {stack : BasicObstack} (rep : Rep env stack chunks) (top : TopStands chunks)
    {fuel : Nat} (enough : stack.topChunk < fuel) :
    ∃ next, stack.popAll env fuel = some ((unmarked chunks).map (Chunk.call env), next) ∧
      Rep env next [] := by
  induction fuel generalizing stack chunks with
  | zero => exact absurd enough (Nat.not_lt_zero _)
  | succ fuel induction =>
      cases chunks with
      | nil => exact ⟨stack, if_neg (not_not.mpr rep.top), rep⟩
      | cons chunk rest =>
          have stands : chunk.destructed = false := top chunk rfl
          have isTop := rep.top_eq
          have positive := rep.header_pos List.mem_cons_self
          obtain ⟨middle, result, newRep, _⟩ := @Rep.pop env stack [] rest chunk rep stands
          rw [List.nil_append, List.dropWhile_cons_of_pos rfl] at newRep
          have smaller : middle.topChunk < fuel := by
            rw [newRep.top]
            cases isRest : rest.dropWhile Chunk.destructed with
            | nil =>
                simp only [List.map_nil, List.headD_nil]
                omega
            | cons second others =>
                have inRest : second ∈ rest := by
                  apply List.dropWhile_sublist (Chunk.destructed) |>.subset
                  rw [isRest]
                  exact List.mem_cons_self
                have below := (List.pairwise_cons.mp rep.stacked.apart).1 second inRest
                have large := sizeofChunkHeader_le env
                unfold sizeofChunkHeader at large
                rw [List.map_cons, List.headD_cons]
                omega
          obtain ⟨next, results, lastRep⟩ := induction newRep (topStands_dropWhile rest) smaller
          refine ⟨next, ?_, lastRep⟩
          rw [unmarked_dropWhile] at results
          rw [BasicObstack.popAll, if_pos (by omega), isTop, result, unmarked_cons_stands stands]
          simp only [Option.bind_eq_bind, Option.bind_some, results, Option.pure_def, List.map_cons,
            Chunk.call]

/-- The destructors run for the object in front first. -/
theorem endLives_all (standing ended : List Object) :
    Ledger.endLives ⟨standing, ended⟩ (standing.map Object.call) =
      some ⟨[], standing.reverse ++ ended⟩ := by
  induction standing generalizing ended with
  | nil => rfl
  | cons object rest induction =>
      have received : object.receives object.call = true := decide_eq_true rfl
      have first : Ledger.endLife ⟨object :: rest, ended⟩ object.call =
          some ⟨rest, object :: ended⟩ := by
        simp only [Ledger.endLife, List.find?_cons, received, List.erase_cons_head]
      rw [List.map_cons, Ledger.endLives, List.foldlM_cons, first, Option.bind_eq_bind,
        Option.bind_some, List.reverse_cons, List.append_assoc]
      exact induction (object :: ended)

theorem inv_deallocAll (inv : Inv env state chunks) :
    ∃ next, step env state .deallocAll = some next ∧ Inv env next [] ∧
      next.ledger = ⟨[], state.ledger.standing.reverse ++ state.ledger.ended⟩ := by
  obtain ⟨stack, result, rep⟩ := popAll inv.rep inv.top (Nat.lt_succ_self _)
  have calls : (unmarked chunks).map (Chunk.call env) =
      state.ledger.standing.map Object.call := by
    have mapped := congrArg (List.map fun place : Nat × Nat × Nat => (place.2.2, place.1)) inv.places
    rw [List.map_map, List.map_map] at mapped
    exact mapped.symm
  have ended := endLives_all state.ledger.standing state.ledger.ended
  refine ⟨⟨stack, ⟨[], state.ledger.standing.reverse ++ state.ledger.ended⟩, state.serial⟩, ?_,
    ⟨rep, fun _ member => absurd member (by simp), rfl, ?_⟩, rfl⟩
  · simp only [step, BasicObstack.deallocAll, result, calls, Option.bind_eq_bind, Option.bind_some,
      State.called, ended, Option.pure_def]
  · simp only [List.nil_append]
    exact ((List.reverse_perm _).append_right _ |>.map _).trans inv.serials

end MallocSurvey.Obstack

/-! # Every destructor runs once

Objects may be deallocated in any order. What is left is destructed by `dealloc_all`, the
object allocated last first. -/

namespace MallocSurvey.Obstack

open Library

/-- Every object that was allocated either stands or has ended once, the standing ones are
apart within the buffer, and the top chunk is that of the one allocated last. -/
structure Sound (env : Environment) (state : State) : Prop where
  once : ((state.ledger.standing ++ state.ledger.ended).map Object.serial).Perm
    (List.range state.serial)
  apart : state.ledger.standing.Pairwise fun left right =>
    right.ptr + right.size ≤ left.ptr - env.headerSize
  inside : ∀ object ∈ state.ledger.standing,
    state.stack.mem ≤ object.ptr - env.headerSize ∧ env.headerSize ≤ object.ptr ∧
      object.ptr + object.size ≤ state.stack.tos
  tos : state.stack.tos ≤ state.stack.endOfMem
  top : state.stack.topChunk ≠ 0 →
    state.stack.dtor state.stack.topChunk ≠ env.freeMarkerDtorXor ∧
      ∃ object ∈ state.ledger.standing.head?,
        object.ptr = state.stack.topChunk + env.headerSize

variable {env : Environment} {state next : State} {chunks : List Chunk} {event : Event}

theorem sound_of_inv (inv : Inv env state chunks) : Sound env state := by
  refine ⟨inv.serials, ?_, ?_, inv.rep.tos_le, ?_⟩
  · apply inv.apart.imp
    intro left right below
    omega
  · intro object member
    have bounds := inv.inside member
    omega
  · intro nonzero
    have rep := inv.rep
    have top := inv.top
    have places := inv.places
    cases chunks with
    | nil => exact absurd rep.top nonzero
    | cons chunk rest =>
        have stands : chunk.destructed = false := top chunk rfl
        have isDtor := rep.dtor chunk List.mem_cons_self
        rw [stands, if_neg Bool.false_ne_true] at isDtor
        rw [unmarked_cons_stands stands, List.map_cons, List.map_eq_cons_iff] at places
        obtain ⟨object, others, isCons, samePlace, _⟩ := places
        rw [rep.top_eq, isDtor]
        refine ⟨rep.differs chunk List.mem_cons_self, object, ?_, congrArg Prod.fst samePlace⟩
        rw [isCons]
        rfl

theorem inv_step (inv : Inv env state chunks) (enabled : Enabled env state event) :
    ∃ next newChunks, step env state event = some next ∧ Inv env next newChunks := by
  cases event with
  | alloc type constructed => exact inv_alloc inv enabled
  | allocArray type numElements => exact inv_allocArray inv enabled
  | dealloc obj =>
      rcases enabled with isNull | ⟨object, isStanding, isPtr, _⟩
      · rw [isNull]
        exact ⟨state, chunks, rfl, inv⟩
      · obtain ⟨next, newChunks, result, newInv, _⟩ := inv_dealloc inv isStanding
        exact ⟨next, newChunks, isPtr ▸ result, newInv⟩
  | deallocAll =>
      obtain ⟨next, result, newInv, _⟩ := inv_deallocAll inv
      exact ⟨next, [], result, newInv⟩
  | write place value =>
      obtain ⟨next, result, newInv⟩ := inv_write inv enabled
      exact ⟨next, chunks, result, newInv⟩

theorem inv_reachable (reachable : (machine env).Reachable (fun _ _ => True) state) :
    ∃ chunks, Inv env state chunks := by
  induction reachable with
  | init isInit => exact ⟨[], inv_init isInit⟩
  | step _ enabled _ result induction =>
      obtain ⟨chunks, inv⟩ := induction
      obtain ⟨next, newChunks, isResult, newInv⟩ := inv_step inv enabled
      cases result.symm.trans isResult
      exact ⟨newChunks, newInv⟩

/-- Whatever was allocated and deallocated, no call is undefined, `dealloc` runs the
destructor of its object, which takes the chunks above the topmost object that stands off
the stack if it was the top one, and `dealloc_all` runs the destructors of all that stand
in reverse order. -/
theorem destructed_once (reachable : (machine env).Reachable (fun _ _ => True) state) :
    Sound env state ∧ (machine env).Safe (fun _ _ => True) state ∧
      (∀ object ∈ state.ledger.standing, ∃ next,
        step env state (.dealloc object.ptr) = some next ∧
        next.ledger = ⟨state.ledger.standing.erase object, object :: state.ledger.ended⟩ ∧
        (object.ptr = state.stack.topChunk + env.headerSize →
          ∃ headers, Rewound env state next headers)) ∧
      ∃ next, step env state .deallocAll = some next ∧ next.stack.topChunk = 0 ∧
        next.ledger = ⟨[], state.ledger.standing.reverse ++ state.ledger.ended⟩ := by
  obtain ⟨chunks, inv⟩ := inv_reachable reachable
  refine ⟨sound_of_inv inv, ?_, ?_, ?_⟩
  · intro event enabled _
    obtain ⟨next, _, result, _⟩ := inv_step inv enabled
    exact fun undefined => Option.some_ne_none next (result.symm.trans undefined)
  · intro object member
    obtain ⟨next, _, result, _, isLedger, rewound⟩ := inv_dealloc inv member
    exact ⟨next, result, isLedger, fun atTop => ⟨_, rewound atTop⟩⟩
  · obtain ⟨next, result, newInv, isLedger⟩ := inv_deallocAll inv
    exact ⟨next, result, newInv.rep.top, isLedger⟩

def sampleEnvironment : Environment where
  maxAlign := 16
  checksumCookie := 7
  xorCookie := 9
  freeMarkerDtor := 64
  arrayOfPrimitivesDtor := 128
  maxAlign_pos := by decide
  checksumCookie_lt := by decide
  xorCookie_lt := by decide
  freeMarkerDtor_lt := by decide
  arrayOfPrimitivesDtor_lt := by decide

/-- An object of 24 bytes on an empty stack. -/
theorem destructed_once_single : ∃ state object,
    state.ledger.standing = [object] ∧ Sound sampleEnvironment state ∧
      (machine sampleEnvironment).Safe (fun _ _ => True) state ∧
      (∀ object ∈ state.ledger.standing, ∃ next,
        step sampleEnvironment state (.dealloc object.ptr) = some next ∧
        next.ledger = ⟨state.ledger.standing.erase object, object :: state.ledger.ended⟩ ∧
        (object.ptr = state.stack.topChunk + sampleEnvironment.headerSize →
          ∃ headers, Rewound sampleEnvironment state next headers)) ∧
      ∃ next, step sampleEnvironment state .deallocAll = some next ∧ next.stack.topChunk = 0 ∧
        next.ledger = ⟨[], state.ledger.standing.reverse ++ state.ledger.ended⟩ := by
  let start : State := ⟨⟨0, 4096, 4096, 8192, fun _ => 0⟩, ⟨[], []⟩, 0⟩
  have init : Init start := ⟨4096, 8192, fun _ => 0, by decide, by decide, by decide, rfl⟩
  have enabled : (machine sampleEnvironment).Enabled start (.alloc ⟨24, 8, 256⟩ true) :=
    ⟨by decide, by decide, by unfold Fits; decide⟩
  have pushed : (step sampleEnvironment start (.alloc ⟨24, 8, 256⟩ true)).map
      (fun next => next.ledger.standing) = some [⟨0, 4128, 24, 256, true⟩] := by
    decide +kernel
  obtain ⟨next, result, standing⟩ := Option.map_eq_some_iff.mp pushed
  have reachable : (machine sampleEnvironment).Reachable (fun _ _ => True) next :=
    .step (.init init) enabled trivial result
  exact ⟨next, _, standing, destructed_once reachable⟩

end MallocSurvey.Obstack
