import Mathlib.Data.List.Nodup
import Mathlib.Logic.Function.Basic

/-! # Queues through links

The nodes of a queue follow each other through their links; the last has none. -/

namespace MallocSurvey.Library

variable {Node : Type}

def Queue (next : Node → Option Node) : List Node → Prop
  | [] => True
  | node :: rest => next node = rest.head? ∧ Queue next rest

namespace Queue

variable {next other : Node → Option Node} {nodes : List Node}

theorem congr (queue : Queue next nodes) (same : ∀ node ∈ nodes, other node = next node) :
    Queue other nodes := by
  induction nodes with
  | nil => trivial
  | cons first rest induction =>
      refine ⟨(same first List.mem_cons_self).trans queue.1, induction queue.2 ?_⟩
      intro node member
      exact same node (List.mem_cons_of_mem first member)

theorem write [DecidableEq Node] (queue : Queue next nodes) {node : Node}
    (absent : node ∉ nodes) (link : Option Node) :
    Queue (Function.update next node link) nodes := by
  apply queue.congr
  intro member inNodes
  exact Function.update_of_ne (ne_of_mem_of_not_mem inNodes absent) _ _

/-- A node without a link goes behind the last one. -/
theorem append [DecidableEq Node] (queue : Queue next nodes) (nodup : nodes.Nodup)
    {last node : Node} (isLast : nodes.getLast? = some last) (absent : node ∉ nodes)
    (unlinked : next node = none) :
    Queue (Function.update next last (some node)) (nodes ++ [node]) := by
  induction nodes with
  | nil => cases isLast
  | cons first rest induction =>
      have distinct : node ≠ first := fun same => absent (same ▸ List.mem_cons_self)
      cases rest with
      | nil =>
          rw [List.getLast?_singleton, Option.some.injEq] at isLast
          subst isLast
          refine ⟨Function.update_self .., ?_, trivial⟩
          rw [Function.update_of_ne distinct]
          exact unlinked
      | cons second rest =>
          have restLast : (second :: rest).getLast? = some last := by
            rw [List.getLast?_cons_cons] at isLast
            exact isLast
          have member : last ∈ second :: rest := List.mem_of_getLast? restLast
          have notFirst : first ≠ last :=
            (ne_of_mem_of_not_mem member (List.nodup_cons.mp nodup).1).symm
          refine ⟨?_, induction queue.2 (List.nodup_cons.mp nodup).2 restLast
            (fun inRest => absent (List.mem_cons_of_mem first inRest))⟩
          rw [Function.update_of_ne notFirst]
          exact queue.1

end Queue

end MallocSurvey.Library
