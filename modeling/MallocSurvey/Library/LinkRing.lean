import Mathlib.Data.List.Cycle

/-! # Rings of links

Nodes that lead to each other in a circle. -/

namespace MallocSurvey.Library

variable {Node : Type}

def LinkRing (next : Node → Option Node) (nodes : List Node) : Prop :=
  Cycle.Chain (fun node following => next node = some following) (nodes : Cycle Node)

namespace LinkRing

variable {next other : Node → Option Node} {node following : Node} {nodes left right : List Node}

theorem single (link : next node = some node) : LinkRing next [node] :=
  (Cycle.chain_singleton _ _).mpr link

/-- A ring has no first node. -/
theorem turn (ring : LinkRing next (left ++ right)) : LinkRing next (right ++ left) := by
  have same : ((left ++ right : List Node) : Cycle Node) = (right ++ left : List Node) :=
    Cycle.coe_eq_coe.mpr List.isRotated_append
  unfold LinkRing at *
  rwa [← same]

theorem next_eq (ring : LinkRing next (node :: following :: nodes)) :
    next node = some following := by
  have chain := (Cycle.chain_coe_cons _ _ _).mp ring
  exact (List.isChain_cons_cons.mp chain).1

theorem next_between (ring : LinkRing next (left ++ node :: following :: right)) :
    next node = some following := by
  have turned : LinkRing next (node :: following :: (right ++ left)) := ring.turn
  exact turned.next_eq

/-- The last node leads to the first one. -/
theorem next_last (ring : LinkRing next (following :: nodes ++ [node])) :
    next node = some following := by
  have turned : LinkRing next ([node] ++ (following :: nodes)) := ring.turn
  exact next_eq turned

theorem next_single (ring : LinkRing next [node]) : next node = some node :=
  (Cycle.chain_singleton _ _).mp ring

theorem next_mem (ring : LinkRing next nodes) (member : node ∈ nodes) :
    ∃ following ∈ nodes, next node = some following := by
  obtain ⟨before, after, isSplit⟩ := List.append_of_mem member
  have turned : LinkRing next (node :: after ++ before) := by
    rw [isSplit] at ring
    exact ring.turn
  cases others : after ++ before with
  | nil =>
      rw [List.cons_append, others] at turned
      exact ⟨node, member, turned.next_single⟩
  | cons following others' =>
      rw [List.cons_append, others] at turned
      refine ⟨following, ?_, turned.next_eq⟩
      have inside : following ∈ after ++ before := others ▸ List.mem_cons_self
      rw [isSplit, List.mem_append, List.mem_cons]
      rcases List.mem_append.mp inside with inAfter | inBefore
      · exact .inr (.inr inAfter)
      · exact .inl inBefore

/-- The links lead from a node of the ring to all of them and nowhere else. -/
theorem reaches_iff {first : Node} (ring : LinkRing next (first :: nodes)) :
    Relation.ReflTransGen (fun node following => next node = some following) first node ↔
      node ∈ first :: nodes := by
  constructor
  · intro reached
    induction reached with
    | refl => exact List.mem_cons_self
    | tail _ link member =>
        obtain ⟨following, inside, isNext⟩ := ring.next_mem member
        rw [link] at isNext
        cases isNext
        exact inside
  · intro member
    rcases List.mem_cons.mp member with isFirst | inside
    · rw [isFirst]
    · obtain ⟨before, after, isSplit⟩ := List.append_of_mem inside
      have chain := (Cycle.chain_coe_cons _ _ _).mp ring
      have shape : first :: (before ++ node :: after ++ [first]) =
          first :: (before ++ [node]) ++ (after ++ [first]) := by simp
      rw [isSplit, shape] at chain
      have front := (List.isChain_append.mp chain).1
      exact List.relationReflTransGen_of_exists_isChain_cons _ front (by simp)

theorem congr (ring : LinkRing next nodes) (same : ∀ node ∈ nodes, other node = next node) :
    LinkRing other nodes := by
  cases nodes with
  | nil => trivial
  | cons first nodes =>
      have chain := (Cycle.chain_coe_cons _ _ _).mp ring
      refine (Cycle.chain_coe_cons _ _ _).mpr (chain.imp_of_mem_imp ?_)
      intro node following member _ link
      rw [← link]
      apply same
      simpa [or_comm, or_assoc] using member

/-- A node is linked in behind another one. -/
theorem insert [DecidableEq Node] {inserted : Node} (ring : LinkRing next (node :: nodes))
    (nodup : (node :: nodes).Nodup) (fresh : inserted ∉ node :: nodes)
    (link : next inserted = next node) :
    LinkRing (Function.update next node (some inserted)) (node :: inserted :: nodes) := by
  have chain := (Cycle.chain_coe_cons _ _ _).mp ring
  refine (Cycle.chain_coe_cons _ _ _).mpr ?_
  rw [List.cons_append, List.isChain_cons_cons]
  refine ⟨Function.update_self .., ?_⟩
  have apart : inserted ≠ node := fun same => fresh (same ▸ List.mem_cons_self)
  have notInside := (List.nodup_cons.mp nodup).1
  cases nodes with
  | nil =>
      rw [List.nil_append, List.isChain_pair] at chain ⊢
      rw [Function.update_of_ne apart, link, chain]
  | cons first nodes =>
      rw [List.cons_append, List.isChain_cons_cons] at chain ⊢
      refine ⟨by rw [Function.update_of_ne apart, link, chain.1], ?_⟩
      -- no other link starts at the node
      rw [← List.cons_append] at chain ⊢
      obtain ⟨_, chain⟩ := chain
      rw [List.isChain_append] at chain ⊢
      obtain ⟨inner, _, last⟩ := chain
      refine ⟨inner.imp_of_mem_imp ?_, List.isChain_singleton node, ?_⟩
      · intro left right leftMember _ isLink
        rw [Function.update_of_ne]
        · exact isLink
        · rintro rfl
          exact notInside leftMember
      · intro left isLast right isNode
        rw [Function.update_of_ne]
        · exact last left isLast right isNode
        · rintro rfl
          exact notInside (List.mem_of_getLast? isLast)

end LinkRing

end MallocSurvey.Library
