import Mathlib.Data.List.Basic
import Mathlib.Data.List.Nodup
import Mathlib.Logic.Function.Basic

/-! # Linked lists seen through pointer cells

A heap maps cells to pointers, zero being null, and `link` is the cell inside an
element that points to the next one. A cursor is a cell, so the list between two
cursors can grow at its end by one write. -/

namespace MallocSurvey.Library

variable {Cell : Type}

/-- `elements` are linked one after another and the last link is null. -/
def Linked (link : Nat → Cell) (heap : Cell → Nat) : List Nat → Prop
  | [] => True
  | first :: rest =>
      first ≠ 0 ∧ heap (link first) = rest.headD 0 ∧ Linked link heap rest

/-- The elements passed by a cursor that moved from `start` to a cell. -/
inductive Passed (link : Nat → Cell) (heap : Cell → Nat) (start : Cell) :
    List Nat → Cell → Prop
  | nil : Passed link heap start [] start
  | snoc {elements : List Nat} {cell : Cell} {element : Nat} :
      Passed link heap start elements cell → heap cell = element → element ≠ 0 →
      Passed link heap start (elements ++ [element]) (link element)

/-- Following the links from a cell to the null one. -/
def walk (link : Nat → Cell) (heap : Cell → Nat) : Nat → Cell → Option (List Nat × Cell)
  | 0, _ => none
  | fuel + 1, cell =>
      if heap cell = 0 then some ([], cell)
      else do
        let (rest, last) ← walk link heap fuel (link (heap cell))
        return (heap cell :: rest, last)

/-- The element after another one, null after the last. -/
def successor : List Nat → Nat → Nat
  | [], _ => 0
  | first :: rest, element =>
      if first = element then rest.headD 0 else successor rest element

theorem successor_append {element : Nat} {front : List Nat} (fresh : element ∉ front)
    (rest : List Nat) : successor (front ++ element :: rest) element = rest.headD 0 := by
  induction front with
  | nil => exact if_pos rfl
  | cons first front induction =>
      rw [List.mem_cons, not_or] at fresh
      rw [List.cons_append, successor, if_neg (Ne.symm fresh.1), induction fresh.2]

/-- The successor in whichever list has the element. -/
def successorIn : List (List Nat) → Nat → Nat
  | [], _ => 0
  | elements :: others, element =>
      if element ∈ elements then successor elements element
      else successorIn others element

section Lists

variable {link : Nat → Cell} {heap : Cell → Nat}

namespace Linked

/-- The first element and the links determine the others. -/
theorem unique {left right : List Nat} (linkedLeft : Linked link heap left)
    (linkedRight : Linked link heap right) (same : left.headD 0 = right.headD 0) :
    left = right := by
  induction left generalizing right with
  | nil =>
      cases right with
      | nil => rfl
      | cons first rest => exact absurd same.symm linkedRight.1
  | cons first rest induction =>
      cases right with
      | nil => exact absurd same linkedLeft.1
      | cons other others =>
          have sameFirst : first = other := same
          subst sameFirst
          rw [induction linkedLeft.2.2 linkedRight.2.2
            (linkedLeft.2.1.symm.trans linkedRight.2.1)]

theorem ne_zero {elements : List Nat} (linked : Linked link heap elements) :
    ∀ element ∈ elements, element ≠ 0 := by
  induction elements with
  | nil => intro _ member; cases member
  | cons first rest induction =>
      intro element member
      rcases List.mem_cons.mp member with isFirst | member
      · exact isFirst ▸ linked.1
      · exact induction linked.2.2 element member

theorem congr {other : Cell → Nat} {elements : List Nat}
    (linked : Linked link heap elements)
    (same : ∀ element ∈ elements, other (link element) = heap (link element)) :
    Linked link other elements := by
  induction elements with
  | nil => trivial
  | cons first rest induction =>
      refine ⟨linked.1, (same first List.mem_cons_self).trans linked.2.1, ?_⟩
      exact induction linked.2.2 fun element member =>
        same element (List.mem_cons_of_mem _ member)

end Linked

namespace Passed

variable {start cell : Cell} {elements : List Nat}

theorem cell_cases (passed : Passed link heap start elements cell) :
    elements = [] ∧ cell = start ∨ ∃ element ∈ elements, cell = link element := by
  cases passed with
  | nil => exact .inl ⟨rfl, rfl⟩
  | snoc _ _ _ => exact .inr ⟨_, by simp, rfl⟩

theorem congr {other : Cell → Nat} (passed : Passed link heap start elements cell)
    (sameStart : other start = heap start)
    (same : ∀ element ∈ elements, other (link element) = heap (link element)) :
    Passed link other start elements cell := by
  induction passed with
  | nil => exact .nil
  | @snoc elements cell element passed points nonzero induction =>
      have sameElements := fun element member =>
        same element (List.mem_append_left _ member)
      refine .snoc (induction sameElements) ?_ nonzero
      rcases passed.cell_cases with ⟨_, isStart⟩ | ⟨last, member, isLink⟩
      · rw [isStart, sameStart, ← isStart, points]
      · rw [isLink, sameElements last member, ← isLink, points]

/-- The cell of the cursor has not been read. -/
theorem write [DecidableEq Cell] (passed : Passed link heap start elements cell)
    (nodup : elements.Nodup) (injective : Function.Injective link)
    (different : ∀ element, link element ≠ start) (value : Nat) :
    Passed link (Function.update heap cell value) start elements cell := by
  cases passed with
  | nil => exact .nil
  | @snoc elements previous element passed points nonzero =>
      have fresh : element ∉ elements := by
        rw [List.nodup_append] at nodup
        exact fun member => nodup.2.2 element member element (by simp) rfl
      have sameElements : ∀ other ∈ elements,
          Function.update heap (link element) value (link other) = heap (link other) :=
        fun other member => Function.update_of_ne (fun equal => by
          rw [injective equal] at member
          exact fresh member) _ _
      have sameStart : Function.update heap (link element) value start = heap start :=
        Function.update_of_ne (different element).symm _ _
      refine .snoc (passed.congr sameStart sameElements) ?_ nonzero
      rcases passed.cell_cases with ⟨_, isStart⟩ | ⟨last, member, isLink⟩
      · rw [isStart, sameStart, ← isStart, points]
      · rw [isLink, sameElements last member, ← isLink, points]

theorem cons {element : Nat} {rest : List Nat} (points : heap start = element)
    (nonzero : element ≠ 0) (passed : Passed link heap (link element) rest cell) :
    Passed link heap start (element :: rest) cell := by
  induction passed with
  | nil => exact .snoc .nil points nonzero
  | snoc _ restPoints restNonzero induction => exact .snoc induction restPoints restNonzero

theorem head (passed : Passed link heap start elements cell) (nonempty : elements ≠ []) :
    heap start = elements.headD 0 ∧ elements.headD 0 ∈ elements := by
  induction passed with
  | nil => exact absurd rfl nonempty
  | @snoc elements cell element passed points _ induction =>
      cases elements with
      | nil =>
          rcases passed.cell_cases with ⟨_, isStart⟩ | ⟨_, member, _⟩
          · exact ⟨isStart ▸ points, by simp⟩
          · cases member
      | cons first rest =>
          have isHead := induction (List.cons_ne_nil _ _)
          exact ⟨isHead.1, by simp⟩

/-- Another cell with the same first pointer starts the same list. -/
theorem restart {other : Cell} (passed : Passed link heap start elements cell)
    (nonempty : elements ≠ []) (same : heap other = heap start) :
    Passed link heap other elements cell := by
  induction passed with
  | nil => exact absurd rfl nonempty
  | @snoc elements cell element passed points nonzero induction =>
      cases elements with
      | nil =>
          rcases passed.cell_cases with ⟨_, isStart⟩ | ⟨_, member, _⟩
          · exact .snoc .nil (same.trans (isStart ▸ points)) nonzero
          · cases member
      | cons first rest => exact .snoc (induction (List.cons_ne_nil _ _)) points nonzero

/-- What was passed and what is still ahead is one list. -/
theorem linked {ahead : List Nat} (passed : Passed link heap start elements cell) :
    Linked link heap ahead → heap cell = ahead.headD 0 →
      Linked link heap (elements ++ ahead) ∧
        heap start = (elements ++ ahead).headD 0 := by
  induction passed generalizing ahead with
  | nil => exact fun linkedAhead points => ⟨linkedAhead, points⟩
  | @snoc elements cell element _ points nonzero induction =>
      intro linkedAhead pointsAhead
      rw [List.append_assoc, List.singleton_append]
      exact induction ⟨nonzero, pointsAhead, linkedAhead⟩ points

end Passed

/-- A walk along a linked list passes its elements. -/
theorem walk_eq {elements : List Nat} :
    ∀ {cell : Cell} {fuel : Nat}, Linked link heap elements →
      heap cell = elements.headD 0 → elements.length < fuel →
      ∃ last, walk link heap fuel cell = some (elements, last) ∧ heap last = 0 ∧
        Passed link heap cell elements last := by
  induction elements with
  | nil =>
      intro cell fuel _ points enough
      obtain ⟨fuel, rfl⟩ := Nat.exists_eq_succ_of_ne_zero (Nat.ne_zero_of_lt enough)
      exact ⟨cell, if_pos points, points, .nil⟩
  | cons first rest induction =>
      intro cell fuel linked points enough
      obtain ⟨fuel, rfl⟩ := Nat.exists_eq_succ_of_ne_zero (Nat.ne_zero_of_lt enough)
      obtain ⟨last, walked, isNull, passed⟩ :=
        induction linked.2.2 linked.2.1 (Nat.lt_of_succ_lt_succ enough)
      rw [List.headD_cons] at points
      refine ⟨last, ?_, isNull, .cons points linked.1 passed⟩
      rw [walk, points, if_neg linked.1, walked]
      rfl

theorem linked_of_successor {elements : List Nat} (nodup : elements.Nodup)
    (nonzero : ∀ element ∈ elements, element ≠ 0)
    (links : ∀ element ∈ elements, heap (link element) = successor elements element) :
    Linked link heap elements := by
  induction elements with
  | nil => trivial
  | cons first rest induction =>
      have restNodup := List.nodup_cons.mp nodup
      refine ⟨nonzero first List.mem_cons_self, ?_, induction restNodup.2
        (fun element member => nonzero element (List.mem_cons_of_mem _ member)) ?_⟩
      · rw [links first List.mem_cons_self, successor, if_pos rfl]
      · intro element member
        rw [links element (List.mem_cons_of_mem _ member), successor, if_neg]
        exact fun equal => restNodup.1 (equal ▸ member)

theorem successorIn_eq {lists : List (List Nat)} {elements : List Nat} {element : Nat}
    (nodup : lists.flatten.Nodup) (isList : elements ∈ lists)
    (member : element ∈ elements) :
    successorIn lists element = successor elements element := by
  induction lists with
  | nil => cases isList
  | cons first others induction =>
      rw [List.flatten_cons, List.nodup_append] at nodup
      obtain ⟨_, othersNodup, disjoint⟩ := nodup
      rcases List.mem_cons.mp isList with isFirst | isList
      · rw [successorIn, ← isFirst, if_pos member]
      · have notFirst : element ∉ first := fun inFirst =>
          disjoint element inFirst element
            (List.mem_flatten.mpr ⟨elements, isList, member⟩) rfl
        rw [successorIn, if_neg notFirst, induction othersNodup isList]

end Lists

end MallocSurvey.Library
