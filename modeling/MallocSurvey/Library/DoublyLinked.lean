import Mathlib.Data.List.Basic
import Mathlib.Data.List.Nodup

/-! # Doubly linked lists

`next` and `prev` are the links of the nodes. The `prev` of the first node is
`before`, and the `next` of the last one is `null`. Pushing and unlinking change the
links of at most two other nodes. -/

namespace MallocSurvey.Library

def DoublyLinked (null : Nat) (next prev : Nat → Nat) : Nat → List Nat → Prop
  | _, [] => True
  | before, node :: rest =>
      prev node = before ∧ next node = rest.headD null ∧ DoublyLinked null next prev node rest

namespace DoublyLinked

variable {null before : Nat} {next prev newNext newPrev : Nat → Nat} {nodes : List Nat}

theorem congr (linked : DoublyLinked null next prev before nodes)
    (sameNext : ∀ node ∈ nodes, newNext node = next node)
    (samePrev : ∀ node ∈ nodes, newPrev node = prev node) :
    DoublyLinked null newNext newPrev before nodes := by
  induction nodes generalizing before with
  | nil => trivial
  | cons first rest induction =>
      refine ⟨(samePrev first List.mem_cons_self).trans linked.1,
        (sameNext first List.mem_cons_self).trans linked.2.1, induction linked.2.2 ?_ ?_⟩
      · exact fun node member => sameNext node (List.mem_cons_of_mem _ member)
      · exact fun node member => samePrev node (List.mem_cons_of_mem _ member)

/-- A node is linked in front: only the `prev` of the old first node changes. -/
theorem push (linked : DoublyLinked null next prev before nodes) {node : Nat}
    (nodup : nodes.Nodup) (nodePrev : newPrev node = before)
    (nodeNext : newNext node = nodes.headD null)
    (sameNext : ∀ other ∈ nodes, newNext other = next other)
    (samePrev : ∀ other ∈ nodes, newPrev other =
      if other = nodes.headD null then node else prev other) :
    DoublyLinked null newNext newPrev before (node :: nodes) := by
  refine ⟨nodePrev, nodeNext, ?_⟩
  cases nodes with
  | nil => trivial
  | cons first rest =>
      have notMember := (List.nodup_cons.mp nodup).1
      refine ⟨?_, (sameNext first List.mem_cons_self).trans linked.2.1,
        linked.2.2.congr ?_ ?_⟩
      · rw [samePrev first List.mem_cons_self, List.headD_cons, if_pos rfl]
      · exact fun other member => sameNext other (List.mem_cons_of_mem _ member)
      · intro other member
        rw [samePrev other (List.mem_cons_of_mem _ member), List.headD_cons, if_neg]
        exact fun equal => notMember (equal ▸ member)

theorem next_mem (linked : DoublyLinked null next prev before nodes) {node : Nat}
    (member : node ∈ nodes) : next node = null ∨ next node ∈ nodes := by
  induction nodes generalizing before with
  | nil => cases member
  | cons first rest induction =>
      rcases List.mem_cons.mp member with isFirst | member
      · rw [isFirst, linked.2.1]
        cases rest with
        | nil => exact .inl rfl
        | cons second rest => exact .inr (List.mem_cons_of_mem _ List.mem_cons_self)
      · exact (induction linked.2.2 member).imp id (List.mem_cons_of_mem _)

theorem prev_mem (linked : DoublyLinked null next prev before nodes) {node : Nat}
    (member : node ∈ nodes) : prev node = before ∨ prev node ∈ nodes := by
  induction nodes generalizing before with
  | nil => cases member
  | cons first rest induction =>
      rcases List.mem_cons.mp member with isFirst | member
      · exact .inl (isFirst ▸ linked.1)
      · rcases induction linked.2.2 member with isFirst | isRest
        · exact .inr (isFirst ▸ List.mem_cons_self)
        · exact .inr (List.mem_cons_of_mem _ isRest)

/-- The first node is the one before which there is none. -/
theorem prev_eq_before_iff (linked : DoublyLinked null next prev before nodes) {node : Nat}
    (nodup : nodes.Nodup) (fresh : before ∉ nodes) (member : node ∈ nodes) :
    prev node = before ↔ nodes.headD null = node := by
  cases nodes with
  | nil => cases member
  | cons first rest =>
      rw [List.headD_cons]
      rcases List.mem_cons.mp member with isFirst | member
      · rw [isFirst]
        exact iff_of_true linked.1 rfl
      · have notFirst : first ≠ node :=
          fun equal => (List.nodup_cons.mp nodup).1 (equal ▸ member)
        refine iff_of_false ?_ notFirst
        intro isBefore
        rcases linked.2.2.prev_mem member with isFirst | isRest
        · exact fresh ((isBefore.symm.trans isFirst) ▸ List.mem_cons_self)
        · exact fresh (List.mem_cons_of_mem _ (isBefore ▸ isRest))

theorem next_ne (linked : DoublyLinked null next prev before nodes) {node : Nat}
    (nodup : nodes.Nodup) (noNull : null ∉ nodes) (member : node ∈ nodes) :
    next node ≠ node := by
  induction nodes generalizing before with
  | nil => cases member
  | cons first rest induction =>
      obtain ⟨notMember, restNodup⟩ := List.nodup_cons.mp nodup
      rcases List.mem_cons.mp member with isFirst | member
      · rw [isFirst, linked.2.1]
        cases rest with
        | nil => exact fun equal => noNull (equal ▸ List.mem_cons_self)
        | cons second rest => exact fun equal => notMember (equal ▸ List.mem_cons_self)
      · exact induction linked.2.2 restNodup
          (fun inRest => noNull (List.mem_cons_of_mem _ inRest)) member

theorem prev_ne (linked : DoublyLinked null next prev before nodes) {node : Nat}
    (nodup : nodes.Nodup) (fresh : before ∉ nodes) (member : node ∈ nodes) :
    prev node ≠ node := by
  induction nodes generalizing before with
  | nil => cases member
  | cons first rest induction =>
      obtain ⟨notMember, restNodup⟩ := List.nodup_cons.mp nodup
      rcases List.mem_cons.mp member with isFirst | member
      · rw [isFirst, linked.1]
        exact fun equal => fresh (equal ▸ List.mem_cons_self)
      · exact induction linked.2.2 restNodup notMember member

theorem prev_next (linked : DoublyLinked null next prev before nodes) {node : Nat}
    (member : node ∈ nodes) (notLast : next node ≠ null) : prev (next node) = node := by
  induction nodes generalizing before with
  | nil => cases member
  | cons first rest induction =>
      rcases List.mem_cons.mp member with isFirst | member
      · subst isFirst
        cases rest with
        | nil => exact absurd linked.2.1 notLast
        | cons second rest =>
            rw [linked.2.1, List.headD_cons]
            exact linked.2.2.1
      · exact induction linked.2.2 member

theorem next_prev (linked : DoublyLinked null next prev before nodes) {node : Nat}
    (nodup : nodes.Nodup) (member : node ∈ nodes) (notFirst : prev node ≠ before) :
    next (prev node) = node := by
  induction nodes generalizing before with
  | nil => cases member
  | cons first rest induction =>
      obtain ⟨notMember, restNodup⟩ := List.nodup_cons.mp nodup
      rcases List.mem_cons.mp member with isFirst | member
      · exact absurd (isFirst ▸ linked.1) notFirst
      · by_cases isSecond : prev node = first
        · have isHead := (linked.2.2.prev_eq_before_iff restNodup notMember member).mp isSecond
          rw [isSecond, linked.2.1, isHead]
        · exact induction linked.2.2 restNodup member isSecond

/-- A node without successor and predecessor is alone. -/
theorem alone (linked : DoublyLinked null next prev before nodes) {node : Nat}
    (nodup : nodes.Nodup) (fresh : before ∉ nodes) (noNull : null ∉ nodes)
    (member : node ∈ nodes) (isFirst : prev node = before) (isLast : next node = null) :
    nodes = [node] := by
  have isHead := (linked.prev_eq_before_iff nodup fresh member).mp isFirst
  cases nodes with
  | nil => cases member
  | cons first rest =>
      rw [List.headD_cons] at isHead
      subst isHead
      have second := linked.2.1.symm.trans isLast
      cases rest with
      | nil => rfl
      | cons second rest =>
          rw [List.headD_cons] at second
          exact absurd (List.mem_cons_of_mem _ (second ▸ List.mem_cons_self)) noNull

/-- Unlinking a node: its neighbours are linked to each other. -/
theorem erase (linked : DoublyLinked null next prev before nodes) {node : Nat}
    (nodup : nodes.Nodup) (fresh : before ∉ nodes) (noNull : null ∉ nodes)
    (member : node ∈ nodes)
    (nextLinks : ∀ other ∈ nodes, other ≠ node → newNext other =
      if other = prev node then next node else next other)
    (prevLinks : ∀ other ∈ nodes, other ≠ node → newPrev other =
      if other = next node then prev node else prev other) :
    DoublyLinked null newNext newPrev before (nodes.erase node) := by
  induction nodes generalizing before with
  | nil => cases member
  | cons first rest induction =>
      obtain ⟨firstPrev, firstNext, restLinked⟩ := linked
      obtain ⟨notMember, restNodup⟩ := List.nodup_cons.mp nodup
      have restNoNull : null ∉ rest := fun inRest => noNull (List.mem_cons_of_mem _ inRest)
      by_cases isFirst : first = node
      · -- the second node becomes the first one
        subst isFirst
        rw [List.erase_cons_head]
        have others : ∀ other ∈ rest, other ≠ first :=
          fun other inRest equal => notMember (equal ▸ inRest)
        cases rest with
        | nil => trivial
        | cons second rest =>
            rw [List.headD_cons] at firstNext
            have secondNotMember := (List.nodup_cons.mp restNodup).1
            have beforeNe : ∀ other ∈ second :: rest, other ≠ before :=
              fun other inRest equal => fresh (equal ▸ List.mem_cons_of_mem _ inRest)
            have nextSame : ∀ other ∈ second :: rest, newNext other = next other := by
              intro other inRest
              rw [nextLinks other (List.mem_cons_of_mem _ inRest) (others other inRest),
                firstPrev, if_neg (beforeNe other inRest)]
            refine ⟨?_, (nextSame second List.mem_cons_self).trans restLinked.2.1,
              restLinked.2.2.congr ?_ ?_⟩
            · rw [prevLinks second (by simp) (others second List.mem_cons_self), firstNext,
                if_pos rfl, firstPrev]
            · exact fun other inRest => nextSame other (List.mem_cons_of_mem _ inRest)
            · intro other inRest
              rw [prevLinks other (by simp [inRest])
                (others other (List.mem_cons_of_mem _ inRest)), firstNext, if_neg]
              exact fun equal => secondNotMember (equal ▸ inRest)
      · have member := (List.mem_cons.mp member).resolve_left (Ne.symm isFirst)
        rw [List.erase_cons_tail (by simpa using isFirst)]
        have nextMember := restLinked.next_mem member
        have firstNotNext : first ≠ next node := by
          rcases nextMember with isNull | inRest
          · exact fun equal => noNull (isNull ▸ equal ▸ List.mem_cons_self)
          · exact fun equal => notMember (equal ▸ inRest)
        refine ⟨?_, ?_, ?_⟩
        · rw [prevLinks first List.mem_cons_self isFirst, if_neg firstNotNext, firstPrev]
        · rw [nextLinks first List.mem_cons_self isFirst]
          cases rest with
          | nil => cases member
          | cons second rest =>
              rw [List.headD_cons] at firstNext
              by_cases isSecond : second = node
              · subst isSecond
                rw [restLinked.1, if_pos rfl, restLinked.2.1, List.erase_cons_head]
              · have inRest := (List.mem_cons.mp member).resolve_left (Ne.symm isSecond)
                have notPrev : first ≠ prev node := by
                  rcases restLinked.2.2.prev_mem inRest with isPrev | isPrev
                  · rw [isPrev]
                    exact fun equal => notMember (equal ▸ List.mem_cons_self)
                  · exact fun equal => notMember (equal ▸ List.mem_cons_of_mem _ isPrev)
                rw [if_neg notPrev, firstNext, List.erase_cons_tail (by simpa using isSecond),
                  List.headD_cons]
        · exact induction restLinked restNodup notMember restNoNull member
            (fun other inRest => nextLinks other (List.mem_cons_of_mem _ inRest))
            (fun other inRest => prevLinks other (List.mem_cons_of_mem _ inRest))

/-- The first node after unlinking. -/
theorem headD_erase (linked : DoublyLinked null next prev before nodes) {node : Nat}
    (member : node ∈ nodes) :
    (nodes.erase node).headD null =
      if nodes.headD null = node then next node else nodes.headD null := by
  cases nodes with
  | nil => cases member
  | cons first rest =>
      rw [List.headD_cons]
      by_cases isFirst : first = node
      · rw [if_pos isFirst, ← isFirst, List.erase_cons_head, linked.2.1]
      · rw [if_neg isFirst, List.erase_cons_tail (by simpa using isFirst), List.headD_cons]

end DoublyLinked

end MallocSurvey.Library
