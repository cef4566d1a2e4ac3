import MallocSurvey.Library.CellList
import MallocSurvey.Library.DoublyLinked
import MallocSurvey.Tav.MBAlloc

/-! # The lists of megablocks

The free list is linked by `next` only, the others by `prev` as well. -/

namespace MallocSurvey.Tav

open Library

/-- The heads and the links of an allocator are those of some lists without a common member. -/
structure Shelved (allocator : Allocator) (lists : Place → List Nat) : Prop where
  head : ∀ place, allocator.context.head place = (lists place).headD 0
  free : Linked id allocator.heap.next (lists .free)
  linked : ∀ place, place ≠ .free →
    DoublyLinked 0 allocator.heap.next allocator.heap.prev 0 (lists place)
  nonzero : ∀ place, 0 ∉ lists place
  nodup : ∀ place, (lists place).Nodup
  disjoint : ∀ left right mb, mb ∈ lists left → mb ∈ lists right → left = right

/-- The steps on the lists leave the rest of the allocator as it is. -/
structure SameBlocks (old new : Allocator) : Prop where
  firstBlock : new.heap.firstBlock = old.heap.firstBlock
  index : new.heap.index = old.heap.index
  numOfAllocatedBlocks : new.heap.numOfAllocatedBlocks = old.heap.numOfAllocatedBlocks
  megaBlock : new.heap.megaBlock = old.heap.megaBlock
  nextFreeBlock : new.heap.nextFreeBlock = old.heap.nextFreeBlock
  justAllocated : new.context.justAllocated = old.context.justAllocated
  nextCarved : new.context.nextFreeBlock = old.context.nextFreeBlock
  blocksLeft : new.context.blocksLeft = old.context.blocksLeft

theorem SameBlocks.trans {first second third : Allocator} (left : SameBlocks first second)
    (right : SameBlocks second third) : SameBlocks first third where
  firstBlock := right.firstBlock.trans left.firstBlock
  index := right.index.trans left.index
  numOfAllocatedBlocks := right.numOfAllocatedBlocks.trans left.numOfAllocatedBlocks
  megaBlock := right.megaBlock.trans left.megaBlock
  nextFreeBlock := right.nextFreeBlock.trans left.nextFreeBlock
  justAllocated := right.justAllocated.trans left.justAllocated
  nextCarved := right.nextCarved.trans left.nextCarved
  blocksLeft := right.blocksLeft.trans left.blocksLeft

section Heads

variable (context : Context) (place : Place) (mb : Nat)

@[simp] theorem head_setHead : (context.setHead place mb).head place = mb := by
  cases place with
  | free => rfl
  | filled => rfl
  | partly index => exact Function.update_self ..

theorem head_setHead_ne {other : Place} (different : other ≠ place) :
    (context.setHead place mb).head other = context.head other := by
  cases place with
  | free => cases other with
    | free => exact absurd rfl different
    | filled => rfl
    | partly _ => rfl
  | filled => cases other with
    | free => rfl
    | filled => exact absurd rfl different
    | partly _ => rfl
  | partly index => cases other with
    | free => rfl
    | filled => rfl
    | partly _ =>
        apply Function.update_of_ne
        exact fun equal => different (congrArg Place.partly equal)

theorem sameBlocks_setHead (allocator : Allocator) (heap : Heap)
    (same : SameBlocks allocator ⟨heap, allocator.context⟩) :
    SameBlocks allocator ⟨heap, allocator.context.setHead place mb⟩ := by
  cases place with
  | free => exact { same with }
  | filled => exact { same with }
  | partly index => exact { same with }

end Heads

namespace Allocator

variable (allocator : Allocator) (place : Place) (mb : Nat)

theorem linkInFront_next : (allocator.linkInFront place mb).heap.next =
    Function.update allocator.heap.next mb (allocator.context.head place) := by
  unfold linkInFront
  dsimp only
  split
  · rfl
  · rfl

theorem linkInFront_prev (node : Nat) (nonzero : node ≠ 0) :
    (allocator.linkInFront place mb).heap.prev node =
      if node = allocator.context.head place then mb
      else if node = mb then 0 else allocator.heap.prev node := by
  unfold linkInFront
  dsimp only
  split
  · simp only [Heap.setPrev, Heap.setNext, Function.update_apply]
  · next isNull =>
      have notHead : node ≠ allocator.context.head place :=
        fun equal => nonzero (equal.trans (not_not.mp isNull))
      simp only [Heap.setPrev, Heap.setNext, Function.update_apply, if_neg notHead]

theorem linkInFront_same : SameBlocks allocator (allocator.linkInFront place mb) := by
  unfold linkInFront
  apply sameBlocks_setHead
  split
  · exact ⟨rfl, rfl, rfl, rfl, rfl, rfl, rfl, rfl⟩
  · exact ⟨rfl, rfl, rfl, rfl, rfl, rfl, rfl, rfl⟩

theorem linkInFront_head :
    (allocator.linkInFront place mb).context = allocator.context.setHead place mb := rfl

/-- The successor of a megablock gets its predecessor. -/
def skipPrev : Heap :=
  if allocator.heap.next mb ≠ 0 then
    allocator.heap.setPrev (allocator.heap.next mb) (allocator.heap.prev mb)
  else allocator.heap

theorem skipPrev_next : (allocator.skipPrev mb).next = allocator.heap.next := by
  unfold skipPrev
  split
  · rfl
  · rfl

theorem skipPrev_prev (node : Nat) (nonzero : node ≠ 0) : (allocator.skipPrev mb).prev node =
    if node = allocator.heap.next mb then allocator.heap.prev mb
    else allocator.heap.prev node := by
  unfold skipPrev
  split
  · simp only [Heap.setPrev, Function.update_apply]
  · next isNull =>
      rw [if_neg]
      exact fun equal => nonzero (equal.trans (not_not.mp isNull))

theorem skipPrev_same : SameBlocks allocator ⟨allocator.skipPrev mb, allocator.context⟩ := by
  unfold skipPrev
  split
  · exact ⟨rfl, rfl, rfl, rfl, rfl, rfl, rfl, rfl⟩
  · exact ⟨rfl, rfl, rfl, rfl, rfl, rfl, rfl, rfl⟩

theorem unlink_eq (nonzero : mb ≠ 0) : allocator.unlink place mb =
    if allocator.heap.prev mb ≠ 0 then
      ⟨(allocator.skipPrev mb).setNext (allocator.heap.prev mb) (allocator.heap.next mb),
        allocator.context⟩
    else ⟨allocator.skipPrev mb, allocator.context.setHead place (allocator.heap.next mb)⟩ := by
  have samePrev : (allocator.skipPrev mb).prev mb = allocator.heap.prev mb := by
    rw [skipPrev_prev _ _ _ nonzero, ite_eq_right_iff]
    exact fun _ => rfl
  have isUnlink : allocator.unlink place mb =
      if (allocator.skipPrev mb).prev mb ≠ 0 then
        ⟨(allocator.skipPrev mb).setNext ((allocator.skipPrev mb).prev mb)
          ((allocator.skipPrev mb).next mb), allocator.context⟩
      else ⟨allocator.skipPrev mb,
        allocator.context.setHead place ((allocator.skipPrev mb).next mb)⟩ := rfl
  rw [isUnlink, samePrev, skipPrev_next]

/-- The first megablock has no predecessor, so that both ways of unlinking agree. -/
theorem unlinkFirst_eq (nonzero : mb ≠ 0) (isFirst : allocator.heap.prev mb = 0) :
    allocator.unlinkFirst place mb = allocator.unlink place mb := by
  have isUnlink : allocator.unlinkFirst place mb = ⟨allocator.skipPrev mb,
      allocator.context.setHead place ((allocator.skipPrev mb).next mb)⟩ := rfl
  rw [unlink_eq _ _ _ nonzero, if_neg (not_not.mpr isFirst), isUnlink, skipPrev_next]

theorem unlink_same (nonzero : mb ≠ 0) : SameBlocks allocator (allocator.unlink place mb) := by
  rw [unlink_eq _ _ _ nonzero]
  split
  · exact { allocator.skipPrev_same mb with }
  · exact sameBlocks_setHead _ _ _ _ (allocator.skipPrev_same mb)

theorem unlink_next (nonzero : mb ≠ 0) (node : Nat) (nodeNonzero : node ≠ 0) :
    (allocator.unlink place mb).heap.next node =
      if node = allocator.heap.prev mb then allocator.heap.next mb
      else allocator.heap.next node := by
  rw [unlink_eq _ _ _ nonzero]
  split
  · simp only [Heap.setNext, Function.update_apply, skipPrev_next]
  · next isFirst =>
      rw [skipPrev_next, if_neg]
      exact fun equal => nodeNonzero (equal.trans (not_not.mp isFirst))

theorem unlink_prev (nonzero : mb ≠ 0) (node : Nat) (nodeNonzero : node ≠ 0) :
    (allocator.unlink place mb).heap.prev node =
      if node = allocator.heap.next mb then allocator.heap.prev mb
      else allocator.heap.prev node := by
  rw [unlink_eq _ _ _ nonzero, ← allocator.skipPrev_prev mb node nodeNonzero]
  split
  · rfl
  · rfl

end Allocator

namespace Shelved

variable {allocator new : Allocator} {lists : Place → List Nat} {place : Place} {mb : Nat}

theorem initial {heap : Heap} {context : Context} (empty : ∀ place, context.head place = 0) :
    Shelved ⟨heap, context⟩ fun _ => [] where
  head := empty
  free := trivial
  linked _ _ := trivial
  nonzero _ := List.not_mem_nil
  nodup _ := List.nodup_nil
  disjoint _ _ _ member := absurd member List.not_mem_nil

theorem congr (shelved : Shelved allocator lists)
    (sameHead : ∀ place, new.context.head place = allocator.context.head place)
    (sameNext : new.heap.next = allocator.heap.next)
    (samePrev : new.heap.prev = allocator.heap.prev) : Shelved new lists where
  head place := (sameHead place).trans (shelved.head place)
  free := sameNext ▸ shelved.free
  linked place notFree := sameNext ▸ samePrev ▸ shelved.linked place notFree
  nonzero := shelved.nonzero
  nodup := shelved.nodup
  disjoint := shelved.disjoint

theorem ne_zero (shelved : Shelved allocator lists) (member : mb ∈ lists place) : mb ≠ 0 :=
  fun isZero => shelved.nonzero place (isZero ▸ member)

theorem first_mem (shelved : Shelved allocator lists)
    (nonempty : allocator.context.head place ≠ 0) :
    allocator.context.head place ∈ lists place := by
  rw [shelved.head] at nonempty ⊢
  cases isList : lists place with
  | nil =>
      rw [isList] at nonempty
      exact absurd rfl nonempty
  | cons first rest => exact List.mem_cons_self

theorem eq_nil_of_head (shelved : Shelved allocator lists)
    (empty : allocator.context.head place = 0) : lists place = [] := by
  have nonzero := shelved.nonzero place
  rw [shelved.head] at empty
  cases isList : lists place with
  | nil => rfl
  | cons first rest =>
      rw [isList] at empty nonzero
      rw [List.headD_cons] at empty
      exact absurd (empty ▸ List.mem_cons_self) nonzero

/-- One list is replaced, and the links of the others are untouched. -/
theorem replace (shelved : Shelved allocator lists) {nodes : List Nat}
    (head : new.context.head place = nodes.headD 0)
    (otherHeads : ∀ other, other ≠ place →
      new.context.head other = allocator.context.head other)
    (free : place = .free → Linked id new.heap.next nodes)
    (linked : place ≠ .free → DoublyLinked 0 new.heap.next new.heap.prev 0 nodes)
    (otherNext : ∀ other, other ≠ place → ∀ node ∈ lists other,
      new.heap.next node = allocator.heap.next node)
    (otherPrev : ∀ other, other ≠ place → other ≠ .free → ∀ node ∈ lists other,
      new.heap.prev node = allocator.heap.prev node)
    (nonzero : 0 ∉ nodes) (nodup : nodes.Nodup)
    (fresh : ∀ other, other ≠ place → ∀ node ∈ nodes, node ∉ lists other) :
    Shelved new (Function.update lists place nodes) := by
  constructor
  · intro other
    by_cases same : other = place
    · rw [same, Function.update_self, head]
    · rw [Function.update_of_ne same, otherHeads other same, shelved.head]
  · by_cases same : Place.free = place
    · rw [← same, Function.update_self]
      exact free same.symm
    · rw [Function.update_of_ne same]
      exact shelved.free.congr fun node member => otherNext _ same node member
  · intro other notFree
    by_cases same : other = place
    · subst same
      rw [Function.update_self]
      exact linked notFree
    · rw [Function.update_of_ne same]
      exact (shelved.linked other notFree).congr (otherNext other same)
        (otherPrev other same notFree)
  · intro other
    by_cases same : other = place
    · rw [same, Function.update_self]
      exact nonzero
    · rw [Function.update_of_ne same]
      exact shelved.nonzero other
  · intro other
    by_cases same : other = place
    · rw [same, Function.update_self]
      exact nodup
    · rw [Function.update_of_ne same]
      exact shelved.nodup other
  · intro left right node inLeft inRight
    by_cases isLeft : left = place
    · by_cases isRight : right = place
      · exact isLeft.trans isRight.symm
      · rw [isLeft, Function.update_self] at inLeft
        rw [Function.update_of_ne isRight] at inRight
        exact absurd inRight (fresh right isRight node inLeft)
    · rw [Function.update_of_ne isLeft] at inLeft
      by_cases isRight : right = place
      · rw [isRight, Function.update_self] at inRight
        exact absurd inLeft (fresh left isLeft node inRight)
      · rw [Function.update_of_ne isRight] at inRight
        exact shelved.disjoint left right node inLeft inRight

/-- A megablock that is on no list is linked in front of one. -/
theorem linkInFront (shelved : Shelved allocator lists) (notFree : place ≠ .free)
    (fresh : ∀ other, mb ∉ lists other) (nonzero : mb ≠ 0) :
    Shelved (allocator.linkInFront place mb)
      (Function.update lists place (mb :: lists place)) := by
  have nextOf : ∀ node, (allocator.linkInFront place mb).heap.next node =
      if node = mb then allocator.context.head place else allocator.heap.next node := by
    intro node
    rw [Allocator.linkInFront_next, Function.update_apply]
  have prevOf := allocator.linkInFront_prev place mb
  have other : ∀ {other node}, node ∈ lists other → node ≠ mb :=
    fun member equal => fresh _ (equal ▸ member)
  have mbNotHead : mb ≠ allocator.context.head place := by
    intro equal
    exact fresh place (equal ▸ shelved.first_mem (equal ▸ nonzero))
  apply shelved.replace
  · rw [Allocator.linkInFront_head, head_setHead]
    rfl
  · intro other different
    rw [Allocator.linkInFront_head, head_setHead_ne _ _ _ different]
  · exact fun isFree => absurd isFree notFree
  · intro _
    apply (shelved.linked place notFree).push (shelved.nodup place)
    · rw [prevOf mb nonzero, if_neg mbNotHead, if_pos rfl]
    · rw [nextOf, if_pos rfl, shelved.head]
    · intro node member
      rw [nextOf, if_neg (other member)]
    · intro node member
      rw [prevOf node (shelved.ne_zero member), if_neg (other member), shelved.head]
  · intro _ _ node member
    rw [nextOf, if_neg (other member)]
  · intro otherPlace different _ node member
    rw [prevOf node (shelved.ne_zero member), if_neg (other member), if_neg]
    intro isHead
    have inPlace : node ∈ lists place :=
      isHead ▸ shelved.first_mem (isHead ▸ shelved.ne_zero member)
    exact different (shelved.disjoint _ _ node member inPlace)
  · rw [List.mem_cons, not_or]
    exact ⟨Ne.symm nonzero, shelved.nonzero place⟩
  · exact List.nodup_cons.mpr ⟨fresh place, shelved.nodup place⟩
  · intro otherPlace different node member inOther
    rcases List.mem_cons.mp member with isNew | member
    · exact fresh otherPlace (isNew ▸ inOther)
    · exact different (shelved.disjoint _ _ node inOther member)

/-- A megablock leaves its list. -/
theorem unlink (shelved : Shelved allocator lists) (notFree : place ≠ .free)
    (member : mb ∈ lists place) :
    Shelved (allocator.unlink place mb)
      (Function.update lists place ((lists place).erase mb)) := by
  have nonzero := shelved.ne_zero member
  have linked := shelved.linked place notFree
  have nextOf := allocator.unlink_next place mb nonzero
  have prevOf := allocator.unlink_prev place mb nonzero
  have isHead := linked.prev_eq_before_iff (shelved.nodup place) (shelved.nonzero place) member
  apply shelved.replace
  · rw [linked.headD_erase member, Allocator.unlink_eq _ _ _ nonzero]
    split
    · next notFirst => rw [if_neg (fun equal => notFirst (isHead.mpr equal)), shelved.head]
    · next isFirst => rw [if_pos (isHead.mp (not_not.mp isFirst)), head_setHead]
  · intro other different
    rw [Allocator.unlink_eq _ _ _ nonzero]
    split
    · rfl
    · exact head_setHead_ne _ _ _ different
  · exact fun isFree => absurd isFree notFree
  · intro _
    apply linked.erase (shelved.nodup place) (shelved.nonzero place) (shelved.nonzero place) member
    · exact fun node inList _ => nextOf node (shelved.ne_zero inList)
    · exact fun node inList _ => prevOf node (shelved.ne_zero inList)
  · intro other different node inOther
    rw [nextOf node (shelved.ne_zero inOther), if_neg]
    intro isPrev
    rcases linked.prev_mem member with isNull | inPlace
    · exact shelved.ne_zero inOther (isPrev.trans isNull)
    · exact different (shelved.disjoint _ _ node inOther (isPrev ▸ inPlace))
  · intro other different _ node inOther
    rw [prevOf node (shelved.ne_zero inOther), if_neg]
    intro isNext
    rcases linked.next_mem member with isNull | inPlace
    · exact shelved.ne_zero inOther (isNext.trans isNull)
    · exact different (shelved.disjoint _ _ node inOther (isNext ▸ inPlace))
  · exact fun isZero => shelved.nonzero place (List.mem_of_mem_erase isZero)
  · exact (shelved.nodup place).erase mb
  · intro other different node inErased inOther
    exact different (shelved.disjoint _ _ node inOther (List.mem_of_mem_erase inErased))

/-- After that it is on no list. -/
theorem unlink_fresh (shelved : Shelved allocator lists) (member : mb ∈ lists place)
    (other : Place) : mb ∉ Function.update lists place ((lists place).erase mb) other := by
  by_cases same : other = place
  · rw [same, Function.update_self]
    exact (shelved.nodup place).not_mem_erase
  · rw [Function.update_of_ne same]
    exact fun inOther => same (shelved.disjoint _ _ mb inOther member)

/-- The first megablock of the free list is taken. -/
theorem popFree (shelved : Shelved allocator lists)
    (nonempty : allocator.context.freeMegaBlock ≠ 0) :
    lists .free = allocator.context.freeMegaBlock :: (lists .free).tail ∧
      Shelved ⟨allocator.heap, { allocator.context with
          freeMegaBlock := allocator.heap.next allocator.context.freeMegaBlock }⟩
        (Function.update lists .free (lists .free).tail) := by
  have isHead : allocator.context.freeMegaBlock = (lists .free).headD 0 := shelved.head .free
  have nodup := shelved.nodup .free
  have linked := shelved.free
  have nonzero := shelved.nonzero .free
  have disjoint := shelved.disjoint .free
  cases isList : lists .free with
  | nil =>
      rw [isList] at isHead
      exact absurd isHead nonempty
  | cons first rest =>
      rw [isList] at isHead nodup linked nonzero disjoint
      rw [List.headD_cons] at isHead
      rw [List.tail_cons, isHead]
      refine ⟨rfl, shelved.replace ?_ ?_ ?_ ?_ ?_ ?_ ?_ ?_ ?_⟩
      · exact linked.2.1
      · intro other different
        cases other with
        | free => exact absurd rfl different
        | filled => rfl
        | partly _ => rfl
      · exact fun _ => linked.2.2
      · exact fun notFree => absurd rfl notFree
      · exact fun _ _ _ _ => rfl
      · exact fun _ _ _ _ _ => rfl
      · exact fun isZero => nonzero (List.mem_cons_of_mem _ isZero)
      · exact nodup.of_cons
      · intro other different node inRest inOther
        exact different (disjoint other node (List.mem_cons_of_mem _ inRest) inOther).symm

/-- A megablock that is on no list goes to the free list. -/
theorem pushFree (shelved : Shelved allocator lists) (fresh : ∀ other, mb ∉ lists other)
    (nonzero : mb ≠ 0) :
    Shelved ⟨allocator.heap.setNext mb allocator.context.freeMegaBlock,
        { allocator.context with freeMegaBlock := mb }⟩
      (Function.update lists .free (mb :: lists .free)) := by
  have other : ∀ {other node}, node ∈ lists other →
      Function.update allocator.heap.next mb allocator.context.freeMegaBlock node =
        allocator.heap.next node :=
    fun member => Function.update_of_ne (fun equal => fresh _ (equal ▸ member)) _ _
  apply shelved.replace
  · rfl
  · intro other different
    cases other with
    | free => exact absurd rfl different
    | filled => rfl
    | partly _ => rfl
  · intro _
    refine ⟨nonzero, ?_, shelved.free.congr fun node member => other member⟩
    exact (Function.update_self ..).trans (shelved.head .free)
  · exact fun notFree => absurd rfl notFree
  · exact fun _ _ node member => other member
  · exact fun _ _ _ _ _ => rfl
  · rw [List.mem_cons, not_or]
    exact ⟨Ne.symm nonzero, shelved.nonzero .free⟩
  · exact List.nodup_cons.mpr ⟨fresh .free, shelved.nodup .free⟩
  · intro otherPlace different node member inOther
    rcases List.mem_cons.mp member with isNew | member
    · exact fresh otherPlace (isNew ▸ inOther)
    · exact different (shelved.disjoint _ _ node inOther member)

end Shelved

end MallocSurvey.Tav
