import MallocSurvey.Library.Bits
import MallocSurvey.Library.LinkRing
import MallocSurvey.Library.RingBuffer
import MallocSurvey.ReaderWriterQueue.Queue

/-! # The ring of blocks

The blocks from the front block to the tail block have the elements. The blocks after the
tail block are empty. -/

namespace MallocSurvey.ReaderWriterQueue

open Library

variable {T : Type}

/-! ## Block sizes -/

/-- A power of two, or 0 where it is too large for a word. -/
def Sized (size : Nat) : Prop := ∃ bits, 1 ≤ bits ∧ bits ≤ 64 ∧ size = 2 ^ bits % 2 ^ 64

namespace Block

/-- The elements that there is room for and the wasted one. -/
def slots (block : Block T) : Nat := block.sizeMask + 1

theorem slots_eq_of_size {block other : Block T} (same : block.size = other.size) :
    block.slots = other.slots := by
  unfold slots sizeMask
  rw [same]

variable {block : Block T}

theorem sizeMask_eq (sized : Sized block.size) :
    ∃ bits, 1 ≤ bits ∧ bits ≤ 64 ∧ block.sizeMask = 2 ^ bits - 1 := by
  obtain ⟨bits, positive, bounded, isSize⟩ := sized
  refine ⟨bits, positive, bounded, ?_⟩
  unfold sizeMask
  rw [isSize, Nat.mod_add_mod]
  rcases Nat.lt_or_eq_of_le bounded with small | full
  · have less : 2 ^ bits < 2 ^ 64 := Nat.pow_lt_pow_right (by decide) small
    have nonzero : 0 < 2 ^ bits := Nat.two_pow_pos bits
    have around : 2 ^ bits + (2 ^ 64 - 1) = 2 ^ bits - 1 + 2 ^ 64 := by omega
    rw [around, Nat.add_mod_right]
    exact Nat.mod_eq_of_lt (by omega)
  · rw [full]
    decide

theorem two_le_slots (sized : Sized block.size) : 2 ≤ block.slots := by
  obtain ⟨bits, positive, _, isMask⟩ := sizeMask_eq sized
  have least : 2 ^ 1 ≤ 2 ^ bits := Nat.pow_le_pow_right (by decide) positive
  unfold slots
  omega

theorem advance_eq (sized : Sized block.size) (index : Nat) :
    block.advance index = (index + 1) % block.slots := by
  obtain ⟨bits, positive, bounded, isMask⟩ := sizeMask_eq sized
  have nonzero : 0 < 2 ^ bits := Nat.two_pow_pos bits
  have isSlots : block.slots = 2 ^ bits := by
    unfold slots
    omega
  unfold advance
  rw [isMask, Nat.and_two_pow_sub_one_eq_mod, isSlots]
  exact Nat.mod_mod_of_dvd _ (Nat.pow_dvd_pow 2 bounded)

/-- The elements of a block, in their order. -/
structure Holds (block : Block T) (elements : List T) : Prop where
  sized : Sized block.size
  buffer : RingBuffer block.slots block.front block.tail block.data elements

/-- A block of the same size with another buffer. -/
theorem Holds.rewrite {other : Block T} {elements others : List T} (holds : block.Holds elements)
    (sameSize : other.size = block.size)
    (buffer : RingBuffer block.slots other.front other.tail other.data others) :
    other.Holds others where
  sized := by
    rw [sameSize]
    exact holds.sized
  buffer := by
    rw [slots_eq_of_size sameSize]
    exact buffer

end Block

theorem Sized.double {size : Nat} (sized : Sized size) : Sized (size * 2 % 2 ^ 64) := by
  obtain ⟨bits, positive, bounded, isSize⟩ := sized
  rcases Nat.lt_or_eq_of_le bounded with small | full
  · refine ⟨bits + 1, by omega, small, ?_⟩
    have doubled : 2 ^ (bits + 1) = 2 ^ bits * 2 := Nat.pow_succ ..
    omega
  · refine ⟨64, by decide, Nat.le_refl 64, ?_⟩
    rw [isSize, full]
    decide

theorem sized_ceilToPow2 {maxSize : Nat} (positive : 0 < maxSize) (bounded : maxSize < 2 ^ 64) :
    Sized (ceilToPow2 ((maxSize + 1) % 2 ^ 64)) := by
  have before : ((maxSize + 1) % 2 ^ 64 + (2 ^ 64 - 1)) % 2 ^ 64 = maxSize := by
    rw [Nat.mod_add_mod]
    have around : maxSize + 1 + (2 ^ 64 - 1) = maxSize + 2 ^ 64 := by omega
    rw [around, Nat.add_mod_right, Nat.mod_eq_of_lt bounded]
  have smeared := ((((((Smeared.one maxSize).double).double).double).double).double).double
  have ones := smeared.eq_two_pow_sub_one (by omega) bounded
  have highest : maxSize.log2 < 64 := (Nat.log2_lt (by omega)).mpr bounded
  refine ⟨maxSize.log2 + 1, by omega, highest, ?_⟩
  unfold ceilToPow2
  rw [before]
  have least : 0 < 2 ^ (maxSize.log2 + 1) := Nat.two_pow_pos _
  have sum : 2 ^ (maxSize.log2 + 1) - 1 + 1 = 2 ^ (maxSize.log2 + 1) := by omega
  rw [← sum]
  exact congrArg (fun smeared => (smeared + 1) % 2 ^ 64) ones

/-! ## The ring -/

variable {queue : Queue T} {full rest : List Nat} {contents pending : Nat → List T} {b n : Nat}

structure Arranged (queue : Queue T) (full rest : List Nat) (contents pending : Nat → List T) :
    Prop where
  first : full.head? = some queue.frontBlock
  last : full.getLast? = some queue.tailBlock
  nodup : (full ++ rest).Nodup
  links : LinkRing (fun b => (queue.block b).next) (full ++ rest)
  made : ∀ b ∈ full ++ rest, b < queue.constructed
  holds : ∀ b ∈ full ++ rest, (queue.block b).Holds (contents b)
  passed : ∀ b ∈ full, b ≠ queue.frontBlock → contents b ≠ []
  spare : ∀ b ∈ rest, contents b = pending b
  sized : Sized queue.largestBlockSize

namespace Arranged

theorem mem_ring (member : b ∈ full) : b ∈ full ++ rest := List.mem_append_left rest member

theorem rest_mem_ring (isFirst : rest.head? = some n) : n ∈ full ++ rest :=
  List.mem_append_right full (List.mem_of_head? isFirst)

variable (arranged : Arranged queue full rest contents pending)
include arranged

theorem full_cons : ∃ more, full = queue.frontBlock :: more :=
  List.head?_eq_some_iff.mp arranged.first

theorem full_concat : ∃ init, full = init ++ [queue.tailBlock] :=
  List.getLast?_eq_some_iff.mp arranged.last

theorem frontBlock_mem : queue.frontBlock ∈ full := List.mem_of_head? arranged.first

theorem tailBlock_mem : queue.tailBlock ∈ full := List.mem_of_getLast? arranged.last

theorem apart (member : b ∈ full) (other : n ∈ rest) : b ≠ n := by
  rintro rfl
  exact (List.disjoint_of_nodup_append arranged.nodup) member other

theorem full_nodup : full.Nodup := (List.nodup_append.mp arranged.nodup).1

/-- Where the front block is the tail block there is no other. -/
theorem full_single (same : queue.tailBlock = queue.frontBlock) : full = [queue.frontBlock] := by
  obtain ⟨more, isFull⟩ := arranged.full_cons
  have nodup := arranged.full_nodup
  have isLast := arranged.last
  rw [isFull] at nodup isLast ⊢
  cases more using List.reverseRecOn with
  | nil => rfl
  | append_singleton more last =>
      rw [← List.cons_append, List.getLast?_concat] at isLast
      have notInside := (List.nodup_cons.mp nodup).1
      rw [Option.some.inj isLast, same] at notInside
      exact absurd (List.mem_append_right more List.mem_cons_self) notInside

/-- The tail block leads to the first of the empty blocks, or else to the front block. -/
theorem next_tailBlock :
    (queue.block queue.tailBlock).next = some ((rest.head?).getD queue.frontBlock) := by
  obtain ⟨init, isFull⟩ := arranged.full_concat
  have links := arranged.links
  cases rest with
  | cons n rest =>
      rw [isFull, List.append_assoc, List.singleton_append] at links
      exact links.next_between
  | nil =>
      rw [List.append_nil] at links
      obtain ⟨more, isCons⟩ := arranged.full_cons
      rw [isFull] at isCons links
      cases init with
      | nil =>
          obtain ⟨isFront, _⟩ := List.cons.inj isCons
          have single : (queue.block queue.tailBlock).next = some queue.tailBlock :=
            links.next_single
          rw [single, isFront]
          rfl
      | cons front init =>
          rw [List.cons_append] at isCons
          obtain ⟨isFront, _⟩ := List.cons.inj isCons
          rw [isFront] at links
          exact links.next_last

theorem next_frontBlock (second : full[1]? = some n) :
    (queue.block queue.frontBlock).next = some n := by
  obtain ⟨more, isFull⟩ := arranged.full_cons
  have links := arranged.links
  rw [isFull] at second links
  cases more with
  | nil => cases second
  | cons other more =>
      cases second
      exact links.next_eq

/-- A block of the ring is written. -/
theorem write {block : Block T} {elements : List T} {pending' : Nat → List T}
    (sameNext : block.next = (queue.block b).next) (holds : block.Holds elements)
    (passed : b ∈ full → b ≠ queue.frontBlock → elements ≠ [])
    (spare : ∀ other ∈ rest, Function.update contents b elements other = pending' other) :
    Arranged (queue.setBlock b block) full rest (Function.update contents b elements)
      pending' where
  first := arranged.first
  last := arranged.last
  nodup := arranged.nodup
  links := by
    apply arranged.links.congr
    intro other _
    by_cases same : other = b
    · rw [same]
      simp [Queue.setBlock, sameNext]
    · simp [Queue.setBlock, Function.update_of_ne same]
  made := arranged.made
  holds := by
    intro other member
    by_cases same : other = b
    · subst same
      simpa [Queue.setBlock] using holds
    · simpa [Queue.setBlock, Function.update_of_ne same] using arranged.holds other member
  passed := by
    intro other member notFront
    by_cases same : other = b
    · subst same
      simpa using passed member notFront
    · simpa [Function.update_of_ne same] using arranged.passed other member notFront
  spare := spare
  sized := arranged.sized

/-- A write in a block that does not show it. -/
theorem write_same {block : Block T} (sameNext : block.next = (queue.block b).next)
    (holds : block.Holds (contents b)) :
    Arranged (queue.setBlock b block) full rest contents pending := by
  have written : Arranged (queue.setBlock b block) full rest
      (Function.update contents b (contents b)) pending :=
    arranged.write sameNext holds (arranged.passed b)
      (by rw [Function.update_eq_self]; exact arranged.spare)
  rwa [Function.update_eq_self] at written

/-- Nothing of the ring is written. -/
theorem aside {queue' : Queue T} (sameBlock : ∀ b ∈ full ++ rest, queue'.block b = queue.block b)
    (more : queue.constructed ≤ queue'.constructed)
    (sameFront : queue'.frontBlock = queue.frontBlock)
    (sameTail : queue'.tailBlock = queue.tailBlock) (sized : Sized queue'.largestBlockSize) :
    Arranged queue' full rest contents pending where
  first := by rw [sameFront, arranged.first]
  last := by rw [sameTail, arranged.last]
  nodup := arranged.nodup
  links := arranged.links.congr fun b member => by rw [sameBlock b member]
  made := fun b member => Nat.lt_of_lt_of_le (arranged.made b member) more
  holds := fun b member => by
    rw [sameBlock b member]
    exact arranged.holds b member
  passed := by
    rw [sameFront]
    exact arranged.passed
  spare := arranged.spare
  sized := sized

/-- The front block is empty, and the next one takes its place. -/
theorem advanceFront (second : full[1]? = some n) (empty : contents queue.frontBlock = [])
    (pending_front : pending queue.frontBlock = []) :
    ∃ more, full = queue.frontBlock :: n :: more ∧
      Arranged { queue with frontBlock := n } (n :: more) (rest ++ [queue.frontBlock]) contents
        pending := by
  obtain ⟨more, isFull⟩ := arranged.full_cons
  rw [isFull] at second
  cases more with
  | nil => cases second
  | cons other more =>
      cases second
      refine ⟨more, isFull, ?_⟩
      have turned : full ++ rest = [queue.frontBlock] ++ (n :: more ++ rest) := by
        rw [isFull]
        rfl
      have same : n :: more ++ (rest ++ [queue.frontBlock]) =
          (n :: more ++ rest) ++ [queue.frontBlock] := (List.append_assoc ..).symm
      have perm : (n :: more ++ (rest ++ [queue.frontBlock])).Perm (full ++ rest) := by
        rw [same, turned]
        exact List.perm_append_comm
      have notFront : queue.frontBlock ∉ n :: more := by
        have nodup := arranged.full_nodup
        rw [isFull] at nodup
        exact (List.nodup_cons.mp nodup).1
      exact
        { first := rfl
          last := by
            have isLast := arranged.last
            rw [isFull, List.getLast?_cons_cons] at isLast
            exact isLast
          nodup := perm.nodup_iff.mpr arranged.nodup
          links := by
            rw [same]
            apply LinkRing.turn
            have links := arranged.links
            rwa [turned] at links
          made := fun b member => arranged.made b (perm.mem_iff.mp member)
          holds := fun b member => arranged.holds b (perm.mem_iff.mp member)
          passed := by
            intro b member _
            apply arranged.passed b
            · rw [isFull]
              exact List.mem_cons_of_mem _ member
            · rintro rfl
              exact notFront member
          spare := by
            intro b member
            rcases List.mem_append.mp member with inRest | isFront
            · exact arranged.spare b inRest
            · rw [List.mem_singleton.mp isFront, empty, pending_front]
          sized := arranged.sized }

/-- The first of the empty blocks has an element and becomes the tail block. -/
theorem advanceTail {others : List Nat} {pending' : Nat → List T}
    (isRest : rest = n :: others) (nonempty : contents n ≠ [])
    (spare : ∀ b ∈ others, contents b = pending' b) :
    Arranged { queue with tailBlock := n } (full ++ [n]) others contents pending' := by
  have same : full ++ [n] ++ others = full ++ rest := by
    rw [isRest, List.append_assoc, List.singleton_append]
  exact
    { first := by
        obtain ⟨more, isFull⟩ := arranged.full_cons
        rw [isFull]
        rfl
      last := List.getLast?_concat
      nodup := same ▸ arranged.nodup
      links := by
        rw [same]
        exact arranged.links
      made := by
        rw [same]
        exact arranged.made
      holds := by
        rw [same]
        exact arranged.holds
      passed := by
        intro b member notFront
        rcases List.mem_append.mp member with inFull | isNew
        · exact arranged.passed b inFull notFront
        · rw [List.mem_singleton.mp isNew]
          exact nonempty
      spare := spare
      sized := arranged.sized }

/-- A block is linked in behind the tail block. -/
theorem link {elements : List T} {pending' : Nat → List T} (fresh : n ∉ full ++ rest)
    (made : n < queue.constructed) (holds : (queue.block n).Holds elements)
    (sameNext : (queue.block n).next = (queue.block queue.tailBlock).next)
    (spare : ∀ b ∈ n :: rest, Function.update contents n elements b = pending' b) :
    Arranged (queue.storeNext queue.tailBlock (some n)) full (n :: rest)
      (Function.update contents n elements) pending' := by
  obtain ⟨init, isFull⟩ := arranged.full_concat
  have perm : (full ++ n :: rest).Perm (n :: (full ++ rest)) := List.perm_middle
  have tailHolds : ∀ b, (queue.storeNext queue.tailBlock (some n)).block b =
      { queue.block b with
        next := Function.update (fun b => (queue.block b).next) queue.tailBlock (some n) b } := by
    intro b
    by_cases same : b = queue.tailBlock
    · rw [same]
      simp [Queue.storeNext, Queue.setBlock]
    · simp [Queue.storeNext, Queue.setBlock, Function.update_of_ne same]
  have contents_eq : ∀ b ∈ full ++ rest, Function.update contents n elements b = contents b := by
    intro b member
    apply Function.update_of_ne
    rintro rfl
    exact fresh member
  exact
    { first := arranged.first
      last := arranged.last
      nodup := perm.nodup_iff.mpr (List.nodup_cons.mpr ⟨fresh, arranged.nodup⟩)
      links := by
        have links := arranged.links
        have nodup := arranged.nodup
        rw [isFull, List.append_assoc, List.singleton_append] at links nodup fresh
        have turnedPerm : (queue.tailBlock :: rest ++ init).Perm (init ++ queue.tailBlock :: rest) :=
          List.perm_append_comm
        have inserted := LinkRing.insert links.turn (turnedPerm.nodup_iff.mpr nodup)
          (fun member => fresh (turnedPerm.mem_iff.mp member)) sameNext
        have shape : full ++ n :: rest = init ++ (queue.tailBlock :: n :: rest) := by
          rw [isFull, List.append_assoc, List.singleton_append]
        rw [shape]
        apply LinkRing.turn
        have sameLinks : (fun b => ((queue.storeNext queue.tailBlock (some n)).block b).next) =
            Function.update (fun b => (queue.block b).next) queue.tailBlock (some n) := by
          funext b
          rw [tailHolds]
        rw [sameLinks]
        exact inserted
      made := by
        intro b member
        rcases List.mem_cons.mp (perm.mem_iff.mp member) with rfl | inRing
        · exact made
        · exact arranged.made b inRing
      holds := by
        intro b member
        rw [tailHolds]
        have kept : ∀ {elements : List T}, (queue.block b).Holds elements →
            Block.Holds { queue.block b with
              next := Function.update (fun b => (queue.block b).next) queue.tailBlock (some n) b }
              elements := fun holds => ⟨holds.sized, holds.buffer⟩
        rcases List.mem_cons.mp (perm.mem_iff.mp member) with rfl | inRing
        · rw [Function.update_self]
          exact kept holds
        · rw [contents_eq b inRing]
          exact kept (arranged.holds b inRing)
      passed := by
        intro b member notFront
        rw [contents_eq b (mem_ring member)]
        exact arranged.passed b member notFront
      spare := spare
      sized := arranged.sized }

end Arranged

end MallocSurvey.ReaderWriterQueue
