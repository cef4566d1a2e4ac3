import Mathlib.Algebra.Order.Group.Multiset
import Mathlib.Tactic.Abel
import MallocSurvey.Ltalloc.PTrieTree

/-! # The trie in memory refines a finite map

`Rep` reads a `Trie` back from node memory. Each descending loop is related to
the tree operation of its name by induction on the tree below the cursor; what
the loop leaves behind is described by `plug`, the cursor's words rewritten,
outside the nodes of that tree. -/

namespace MallocSurvey.Ltalloc

open Library

namespace Trie

def addresses : Trie → List Word
  | null => []
  | leaf _ => []
  | node address _ children =>
      address :: (addresses (children false) ++ addresses (children true))

/-- Every stored value is even and not null. -/
def Valued : Trie → Prop
  | null => True
  | leaf value => IsValue value
  | node _ _ children => Valued (children false) ∧ Valued (children true)

theorem Valued.child {address : Word} {keys : Bool → Word}
    {children : Bool → Trie} (valued : Valued (.node address keys children))
    (branch : Bool) : Valued (children branch) := by
  cases branch with
  | false => exact valued.1
  | true => exact valued.2

theorem Valid.valued {tree : Trie} {top : Nat} {witness : Word}
    (valid : Valid tree top witness) : tree.Valued := by
  induction valid with
  | null => trivial
  | leaf isValue => exact isValue
  | bottom _ _ isValue left right =>
      rw [Valued, left, right]
      exact ⟨isValue, trivial⟩
  | inner _ _ _ _ _ _ induction => exact ⟨induction false, induction true⟩

theorem child_addresses_subset {address : Word} {keys : Bool → Word}
    {children : Bool → Trie} (branch : Bool) {node : Word}
    (member : node ∈ (children branch).addresses) :
    node ∈ (Trie.node address keys children).addresses := by
  cases branch <;> simp [addresses, member]

theorem child_addresses_nodup {address : Word} {keys : Bool → Word}
    {children : Bool → Trie}
    (nodup : (Trie.node address keys children).addresses.Nodup) (branch : Bool) :
    (children branch).addresses.Nodup ∧
      address ∉ (children branch).addresses ∧
      ∀ node ∈ (children (!branch)).addresses,
        node ∉ (children branch).addresses := by
  simp only [addresses, List.nodup_cons, List.mem_append, not_or,
    List.nodup_append] at nodup
  obtain ⟨⟨leftFresh, rightFresh⟩, left, right, disjoint⟩ := nodup
  cases branch with
  | false =>
      exact ⟨left, leftFresh, fun node member other => disjoint node other node member rfl⟩
  | true =>
      exact ⟨right, rightFresh, fun node member other => disjoint node member node other rfl⟩

end Trie

/-- The nodes after one child has been replaced. -/
theorem Trie.perm_replace_child {address : Word} {keys otherKeys : Bool → Word}
    {children : Bool → Trie} {branch : Bool} {child : Trie} {gone new : List Word}
    (perm : (new ++ (children branch).addresses).Perm (gone ++ child.addresses)) :
    (new ++ (Trie.node address keys children).addresses).Perm
      (gone ++ (Trie.node address otherKeys
        (Function.update children branch child)).addresses) := by
  rw [← Multiset.coe_eq_coe, ← Multiset.coe_add, ← Multiset.coe_add] at perm ⊢
  cases branch with
  | false =>
      simp only [addresses, Function.update_self, ne_eq, Bool.true_eq_false,
        not_false_eq_true, Function.update_of_ne, ← Multiset.cons_coe,
        ← Multiset.coe_add, ← Multiset.singleton_add]
      calc _ = (↑new + ↑(children false).addresses) +
            ({address} + ↑(children true).addresses : Multiset Word) := by abel
        _ = _ := by
          rw [perm]
          abel
  | true =>
      simp only [addresses, Function.update_self, ne_eq, Bool.false_eq_true,
        not_false_eq_true, Function.update_of_ne, ← Multiset.cons_coe,
        ← Multiset.coe_add, ← Multiset.singleton_add]
      calc _ = (↑new + ↑(children true).addresses) +
            ({address} + ↑(children false).addresses : Multiset Word) := by abel
        _ = _ := by
          rw [perm]
          abel

/-- The memory record of a node with these children. -/
def Trie.record (keys : Bool → Word) (children : Bool → Trie) : PTrieNode where
  keys := keys
  childNodes branch := (children branch).ptr

@[simp] theorem Trie.record_keys (keys : Bool → Word) (children : Bool → Trie) :
    (Trie.record keys children).keys = keys := rfl

@[simp] theorem Trie.record_childNodes (keys : Bool → Word)
    (children : Bool → Trie) (branch : Bool) :
    (Trie.record keys children).childNodes branch = (children branch).ptr := rfl

theorem Trie.record_branch (keys : Bool → Word) (children : Bool → Trie)
    (key : Word) :
    (Trie.record keys children).branch key = key.getLsbD (Trie.prefixEnd keys) :=
  PTrieNode.branch_eq _ _

theorem Trie.record_prefixEnd (keys : Bool → Word) (children : Bool → Trie) :
    (Trie.record keys children).prefixEnd = Trie.prefixEnd keys := rfl

/-- The tree that the node memory stores. -/
def Rep (trie : PTrie) : Trie → Prop
  | .null => True
  | .leaf _ => True
  | .node address keys children =>
      trie.deref address = some (Trie.record keys children) ∧
        Rep trie (children false) ∧ Rep trie (children true)

theorem Rep.child {trie : PTrie} {address : Word} {keys : Bool → Word}
    {children : Bool → Trie} (rep : Rep trie (.node address keys children))
    (branch : Bool) : Rep trie (children branch) := by
  cases branch with
  | false => exact rep.2.1
  | true => exact rep.2.2

namespace PTrie

theorem deref_eq_some_iff {trie : PTrie} {address : Word} {node : PTrieNode} :
    trie.deref address = some node ↔
      isLeaf address = false ∧ address ≠ 0 ∧ trie.nodes address = some node := by
  unfold deref
  cases leaf : isLeaf address <;> by_cases zero : address = 0 <;> simp [zero]

theorem deref_congr {left right : PTrie} {address : Word}
    (same : left.nodes address = right.nodes address) :
    left.deref address = right.deref address := by
  rw [deref, deref, same]

@[simp] theorem setNode_nodes_self (trie : PTrie) (address : Word)
    (node : PTrieNode) : (trie.setNode address node).nodes address = some node :=
  Function.update_self _ _ _

theorem setNode_nodes_of_ne (trie : PTrie) {address other : Word}
    (different : other ≠ address) (node : PTrieNode) :
    (trie.setNode address node).nodes other = trie.nodes other :=
  Function.update_of_ne different _ _

theorem deref_setNode_self {trie : PTrie} {address : Word}
    {old : PTrieNode} (mapped : trie.deref address = some old) (node : PTrieNode) :
    (trie.setNode address node).deref address = some node := by
  rw [deref_eq_some_iff] at mapped ⊢
  exact ⟨mapped.1, mapped.2.1, setNode_nodes_self trie address node⟩

theorem deref_setNode_of_ne (trie : PTrie) {address other : Word}
    (different : other ≠ address) (node : PTrieNode) :
    (trie.setNode address node).deref other = trie.deref other :=
  deref_congr (trie.setNode_nodes_of_ne different node)

/-- The two memories and roots agree except on the nodes of `region`. -/
structure SameOutside (region : List Word) (left right : PTrie) : Prop where
  nodes : ∀ address, address ∉ region → left.nodes address = right.nodes address
  root : left.root = right.root

theorem SameOutside.refl (region : List Word) (trie : PTrie) :
    SameOutside region trie trie := ⟨fun _ _ => rfl, rfl⟩

end PTrie

theorem Rep.congr {left right : PTrie} {tree : Trie} (rep : Rep left tree)
    (same : ∀ address ∈ tree.addresses,
      right.nodes address = left.nodes address) : Rep right tree := by
  induction tree with
  | null => trivial
  | leaf _ => trivial
  | node address keys children induction =>
      refine ⟨?_, ?_, ?_⟩
      · rw [PTrie.deref_congr (same address (by simp [Trie.addresses]))]
        exact rep.1
      · exact induction false rep.2.1 fun node member =>
          same node (Trie.child_addresses_subset false member)
      · exact induction true rep.2.2 fun node member =>
          same node (Trie.child_addresses_subset true member)

theorem Rep.isLeaf_ptr {trie : PTrie} {address : Word} {keys : Bool → Word}
    {children : Bool → Trie} (rep : Rep trie (.node address keys children)) :
    isLeaf address = false :=
  (PTrie.deref_eq_some_iff.mp rep.1).1

theorem Rep.mapped {trie : PTrie} {tree : Trie} (rep : Rep trie tree) {node : Word}
    (member : node ∈ tree.addresses) : ∃ record, trie.nodes node = some record := by
  induction tree with
  | null => cases member
  | leaf _ => cases member
  | node address keys children induction =>
      simp only [Trie.addresses, List.mem_cons, List.mem_append] at member
      rcases member with isOwner | member | member
      · exact isOwner ▸ ⟨_, (PTrie.deref_eq_some_iff.mp rep.1).2.2⟩
      · exact induction false (rep.child false) member
      · exact induction true (rep.child true) member

theorem Rep.ptr_ne_nullNode {trie : PTrie} {address : Word} {keys : Bool → Word}
    {children : Bool → Trie} (rep : Rep trie (.node address keys children)) :
    address ≠ ptrieNullNode := by
  intro equal
  have even := rep.isLeaf_ptr
  rw [equal] at even
  cases even

/-! ## Cursors -/

namespace NodeSlot

/-- The key cursor that accompanies the child cursor. -/
def keyCursor : NodeSlot → Option (Word × Bool)
  | root => none
  | child owner branch => some (owner, branch)

/-- The cursor's child word is `pointer` and its key word is `key`. -/
def Holds (trie : PTrie) : NodeSlot → Word → Word → Prop
  | root, pointer, _ => trie.root = pointer
  | child owner branch, pointer, key =>
      ∃ node, trie.deref owner = some node ∧ node.childNodes branch = pointer ∧
        node.keys branch = key

/-- Rewrite the two words at the cursor. -/
def plug (trie : PTrie) : NodeSlot → Word → Word → PTrie
  | root, pointer, _ => { trie with root := pointer }
  | child owner branch, pointer, key =>
      match trie.deref owner with
      | none => trie
      | some node => trie.setNode owner {
          keys := Function.update node.keys branch key
          childNodes := Function.update node.childNodes branch pointer }

/-- The node that owns the cursor's words is not in `region`. -/
def Avoids : NodeSlot → List Word → Prop
  | root, _ => True
  | child owner _, region => owner ∉ region

variable {trie : PTrie} {slot : NodeSlot} {pointer key : Word}

theorem plug_freeNodesList (trie : PTrie) (slot : NodeSlot) (pointer key : Word) :
    (slot.plug trie pointer key).freeNodesList = trie.freeNodesList := by
  cases slot with
  | root => rfl
  | child owner branch =>
      rw [plug]
      cases trie.deref owner <;> rfl

theorem Holds.read (holds : slot.Holds trie pointer key) :
    trie.read slot = some pointer := by
  cases slot with
  | root => exact congrArg some holds
  | child owner branch =>
      obtain ⟨node, mapped, rfl, _⟩ := holds
      simp [PTrie.read, mapped]

theorem Holds.write (holds : slot.Holds trie pointer key) (next : Word) :
    trie.write slot next = some (slot.plug trie next key) := by
  cases slot with
  | root => rfl
  | child owner branch =>
      obtain ⟨node, mapped, _, rfl⟩ := holds
      simp [PTrie.write, plug, mapped, Function.update_eq_self]

theorem Holds.plug_eq_self (holds : slot.Holds trie pointer key) :
    slot.plug trie pointer key = trie := by
  cases slot with
  | root => rw [plug, ← show trie.root = pointer from holds]
  | child owner branch =>
      obtain ⟨node, mapped, rfl, rfl⟩ := holds
      simp only [plug, mapped, Function.update_eq_self, PTrie.setNode]
      rw [Function.update_eq_self_iff.mpr
        (PTrie.deref_eq_some_iff.mp mapped).2.2.symm]

/-- A write to a node other than the owner does not disturb the cursor. -/
theorem Holds.setNode (holds : slot.Holds trie pointer key) {address : Word}
    {region : List Word} (avoids : slot.Avoids region) (member : address ∈ region)
    (node : PTrieNode) : slot.Holds (trie.setNode address node) pointer key := by
  cases slot with
  | root => exact holds
  | child owner branch =>
      obtain ⟨stored, mapped, pointerEq, keyEq⟩ := holds
      refine ⟨stored, ?_, pointerEq, keyEq⟩
      rw [trie.deref_setNode_of_ne (ne_of_mem_of_not_mem member avoids).symm]
      exact mapped

theorem plug_nodes_of_mem {region : List Word} (avoids : slot.Avoids region)
    {address : Word} (member : address ∈ region) :
    (slot.plug trie pointer key).nodes address = trie.nodes address := by
  cases slot with
  | root => rfl
  | child owner branch =>
      have ownerNe : address ≠ owner := ne_of_mem_of_not_mem member avoids
      cases mapped : trie.deref owner with
      | none => simp [plug, mapped]
      | some node =>
          simp only [plug, mapped]
          exact trie.setNode_nodes_of_ne ownerNe _

theorem plug_setNode_sameOutside (trie : PTrie) (slot : NodeSlot)
    (pointer key : Word) {region : List Word} (avoids : slot.Avoids region)
    {address : Word} (member : address ∈ region) (node : PTrieNode) :
    PTrie.SameOutside region (slot.plug (trie.setNode address node) pointer key)
      (slot.plug trie pointer key) := by
  cases slot with
  | root =>
      refine ⟨fun other outside => ?_, rfl⟩
      exact trie.setNode_nodes_of_ne (ne_of_mem_of_not_mem member outside).symm _
  | child owner branch =>
      have ownerNe : owner ≠ address := (ne_of_mem_of_not_mem member avoids).symm
      simp only [plug, trie.deref_setNode_of_ne ownerNe]
      cases trie.deref owner with
      | none =>
          refine ⟨fun other outside => ?_, rfl⟩
          exact trie.setNode_nodes_of_ne (ne_of_mem_of_not_mem member outside).symm _
      | some stored =>
          refine ⟨fun other outside => ?_, rfl⟩
          have otherNe : other ≠ address :=
            (ne_of_mem_of_not_mem member outside).symm
          by_cases isOwner : other = owner
          · subst isOwner
            rw [PTrie.setNode_nodes_self, PTrie.setNode_nodes_self]
          · rw [PTrie.setNode_nodes_of_ne _ isOwner, PTrie.setNode_nodes_of_ne _ isOwner,
              PTrie.setNode_nodes_of_ne _ otherNe]

end NodeSlot

/-! ## Replacing a child

One level of the descent: what happened at the child's cursor, seen from the
node that owns it. -/

theorem Rep.replace_child {trie after : PTrie} {address childKey : Word}
    {keys : Bool → Word} {children : Bool → Trie} {branch : Bool} {child : Trie}
    {region : List Word} (rep : Rep trie (.node address keys children))
    (nodup : (Trie.node address keys children).addresses.Nodup)
    (same : PTrie.SameOutside region after
      (NodeSlot.plug trie (.child address branch) child.ptr childKey))
    (ownerOutside : address ∉ region)
    (siblingOutside : ∀ node ∈ (children (!branch)).addresses, node ∉ region)
    (childRep : Rep after child) :
    Rep after (.node address (Function.update keys branch childKey)
      (Function.update children branch child)) := by
  have siblingNe : ∀ node ∈ (children (!branch)).addresses, node ≠ address :=
    fun node member => ne_of_mem_of_not_mem member
      (Trie.child_addresses_nodup nodup (!branch)).2.1
  have plugged : NodeSlot.plug trie (.child address branch) child.ptr childKey =
      trie.setNode address {
        keys := Function.update keys branch childKey
        childNodes := Function.update (Trie.record keys children).childNodes branch
          child.ptr } := by
    simp only [NodeSlot.plug, rep.1, Trie.record_keys]
  rw [plugged] at same
  have ownerDeref : after.deref address = some (Trie.record
      (Function.update keys branch childKey)
      (Function.update children branch child)) := by
    rw [PTrie.deref_congr (same.nodes address ownerOutside),
      PTrie.deref_setNode_self rep.1, Option.some.injEq, PTrieNode.mk.injEq]
    refine ⟨rfl, ?_⟩
    funext side
    by_cases taken : side = branch
    · subst taken
      simp
    · simp [taken]
  have siblingRep : Rep after (children (!branch)) := by
    refine (rep.child (!branch)).congr fun node member => ?_
    rw [same.nodes node (siblingOutside node member)]
    exact trie.setNode_nodes_of_ne (siblingNe node member) _
  refine ⟨ownerDeref, ?_, ?_⟩
  · cases branch with
    | false => exact childRep
    | true => exact siblingRep
  · cases branch with
    | false => exact siblingRep
    | true => exact childRep

theorem PTrie.SameOutside.of_child {trie after : PTrie} {slot : NodeSlot}
    {address witness pointer childKey : Word} {branch : Bool}
    {region larger : List Word} (holds : slot.Holds trie address witness)
    (same : SameOutside region after
      (NodeSlot.plug trie (.child address branch) pointer childKey))
    (subset : ∀ node ∈ region, node ∈ larger) (ownerMem : address ∈ larger) :
    SameOutside larger after (slot.plug trie address witness) := by
  rw [holds.plug_eq_self]
  have childSame : SameOutside larger
      (NodeSlot.plug trie (.child address branch) pointer childKey) trie := by
    cases mapped : trie.deref address with
    | none => simp [NodeSlot.plug, mapped, SameOutside.refl]
    | some stored =>
      simp only [NodeSlot.plug, mapped]
      refine ⟨fun node outside => ?_, rfl⟩
      exact trie.setNode_nodes_of_ne (ne_of_mem_of_not_mem ownerMem outside).symm _
  refine ⟨fun node outside => ?_, same.root.trans childSame.root⟩
  exact (same.nodes node fun member => outside (subset node member)).trans
    (childSame.nodes node outside)

/-! ## Lookup -/

/-- The lookup loop ends at the tagged value, beside the key that is compared. -/
theorem PTrie.lookupLoop_refines {trie : PTrie} {key value : Word} {tree : Trie} :
    ∀ {slot : NodeSlot} {witness : Word} {fuel : Nat}, Rep trie tree →
      slot.Holds trie tree.ptr witness → (∀ old, tree = .leaf old → slot ≠ .root) →
      tree.find key witness = some value → tree.depth < fuel →
      ∃ owner branch last,
        trie.lookupLoop key fuel tree.ptr slot.keyCursor =
          some (value ||| 1, some (owner, branch)) ∧
        trie.deref owner = some last ∧ clearLowByte (last.keys branch) = key := by
  induction tree with
  | null =>
      intro slot witness fuel _ _ _ found
      cases found
  | leaf old =>
      intro slot witness fuel _ holds notRoot found enough
      obtain ⟨fuel, rfl⟩ := Nat.exists_eq_succ_of_ne_zero (Nat.ne_of_gt enough)
      simp only [Trie.find, Option.ite_none_right_eq_some, Option.some.injEq] at found
      cases slot with
      | root => exact absurd rfl (notRoot old rfl)
      | child owner branch =>
          obtain ⟨last, mapped, _, rfl⟩ := holds
          refine ⟨owner, branch, last, ?_, mapped, found.1⟩
          simp only [lookupLoop, Trie.ptr_leaf, isLeaf_or_one, if_true,
            NodeSlot.keyCursor, found.2]
  | node address keys children induction =>
      intro slot witness fuel rep _ _ found enough
      obtain ⟨fuel, rfl⟩ := Nat.exists_eq_succ_of_ne_zero (Nat.ne_zero_of_lt enough)
      have shallow : ∀ branch, (children branch).depth < fuel := by
        intro branch
        simp only [Trie.depth] at enough
        cases branch <;> omega
      simp only [lookupLoop, Trie.ptr_node, rep.isLeaf_ptr, rep.1,
        Trie.record_branch, Bool.false_eq_true, if_false, Option.bind_eq_bind, Option.bind_some]
      exact @induction _ (.child address _) _ _ (rep.child _)
        ⟨_, rep.1, rfl, rfl⟩ (by simp) found (shallow _)

/-! ## Insertion -/

section Insert

variable {trie : PTrie} {key value newNode : Word} {stale : PTrieNode}

/-- Writing a new node whose children are already represented. -/
theorem Rep.plug_node {below : Trie} {slot : NodeSlot} {keys : Bool → Word}
    {children : Bool → Trie} {region : List Word} {witness : Word}
    (mapped : trie.deref newNode = some stale) (avoids : slot.Avoids region)
    (newMem : newNode ∈ region) (fresh : newNode ∉ below.addresses)
    (inRegion : ∀ address ∈ below.addresses, address ∈ region)
    (rep : Rep trie below)
    (childrenEq : ∀ branch, children branch = below ∨
      (children branch).addresses = [] ∧ ∀ anyTrie, Rep anyTrie (children branch)) :
    Rep (slot.plug
      (trie.setNode newNode (Trie.record keys children))
      newNode witness) (.node newNode keys children) := by
  have newSame : (slot.plug
      (trie.setNode newNode (Trie.record keys children))
      newNode witness).deref newNode =
        some (Trie.record keys children) := by
    rw [PTrie.deref_congr (NodeSlot.plug_nodes_of_mem avoids newMem)]
    exact PTrie.deref_setNode_self mapped _
  have childRep : ∀ branch, Rep (slot.plug
      (trie.setNode newNode (Trie.record keys children))
      newNode witness) (children branch) := by
    intro branch
    rcases childrenEq branch with equal | ⟨_, always⟩
    · rw [equal]
      refine rep.congr fun address member => ?_
      rw [NodeSlot.plug_nodes_of_mem avoids (inRegion address member)]
      exact trie.setNode_nodes_of_ne (ne_of_mem_of_not_mem member fresh) _
    · exact always _
  exact ⟨newSame, childRep false, childRep true⟩

theorem PTrie.graft_refines {below : Trie} {slot : NodeSlot} {pkey x witness : Word}
    (mapped : trie.deref newNode = some stale)
    (holds : slot.Holds trie below.ptr witness)
    (avoids : slot.Avoids (newNode :: below.addresses))
    (fresh : newNode ∉ below.addresses) (rep : Rep trie below) :
    ∃ after, trie.graft slot below.ptr pkey x key value newNode = some after ∧
      Rep after (below.graft pkey x key value newNode) ∧
      SameOutside (newNode :: below.addresses) after
        (slot.plug trie newNode witness) := by
  have branchEq : (key >>> bsr x).getLsbD 0 = key.getLsbD (bsr x) := by
    simp
  have childNodesEq : (fun side => if side = key.getLsbD (bsr x) then value ||| 1
      else below.ptr) = fun side =>
        (if side = key.getLsbD (bsr x) then Trie.leaf value else below).ptr := by
    funext side
    split_ifs <;> rfl
  simp only [graft, mapped, Option.bind_eq_bind, Option.bind_some, branchEq,
    childNodesEq]
  rw [(holds.setNode avoids List.mem_cons_self _).write]
  refine ⟨_, rfl, ?_, NodeSlot.plug_setNode_sameOutside trie slot newNode witness
    avoids List.mem_cons_self _⟩
  refine Rep.plug_node mapped avoids List.mem_cons_self fresh
    (fun _ => List.mem_cons_of_mem _) rep ?_
  intro branch
  split_ifs
  · exact .inr ⟨rfl, fun _ => trivial⟩
  · exact .inl rfl

theorem PTrie.insertLoop_refines {tree : Trie} :
    ∀ {trie : PTrie} {slot : NodeSlot} {witness : Word} {fuel : Nat},
      trie.deref newNode = some stale → Rep trie tree →
      slot.Holds trie tree.ptr witness → tree.addresses.Nodup →
      newNode ∉ tree.addresses → slot.Avoids (newNode :: tree.addresses) →
      tree.Valued → (∀ old, tree = .leaf old → slot ≠ .root) →
      tree.find key witness = none → tree.depth < fuel →
      ∃ after, insertLoop key value newNode fuel trie slot slot.keyCursor =
          some after ∧
        Rep after (tree.insert key value newNode (stale.keys true) witness) ∧
        SameOutside (newNode :: tree.addresses) after (slot.plug trie
          (tree.insert key value newNode (stale.keys true) witness).ptr witness) := by
  induction tree with
  | null =>
      intro trie slot witness fuel mapped _ holds _ _ avoids _ _ _ enough
      obtain ⟨fuel, rfl⟩ := Nat.exists_eq_succ_of_ne_zero (Nat.ne_zero_of_lt enough)
      have linkedMapped : (slot.plug trie newNode witness).deref newNode =
          some stale := by
        rw [deref_congr (NodeSlot.plug_nodes_of_mem avoids List.mem_cons_self)]
        exact mapped
      simp only [insertLoop, holds.read, holds.write, Trie.ptr_null, isLeaf_nullNode,
        if_true, Option.bind_eq_bind, Option.bind_some, linkedMapped]
      refine ⟨_, rfl, ⟨?_, trivial, trivial⟩, ?_⟩
      · rw [deref_setNode_self linkedMapped, Option.some.injEq, PTrieNode.mk.injEq]
        constructor
        · funext side
          cases side with
          | false => exact Function.update_self _ _ _
          | true => rfl
        · funext side
          cases side <;> rfl
      · refine ⟨fun address outside => ?_, rfl⟩
        exact setNode_nodes_of_ne _
          (ne_of_mem_of_not_mem List.mem_cons_self outside).symm _
  | leaf old =>
      intro trie slot witness fuel mapped rep holds _ fresh avoids valued notRoot
        absent enough
      obtain ⟨fuel, rfl⟩ := Nat.exists_eq_succ_of_ne_zero (Nat.ne_zero_of_lt enough)
      have notNull : old ||| 1 ≠ ptrieNullNode :=
        or_one_ne_nullNode valued.1 valued.2
      have different : key ^^^ clearLowByte witness ≠ 0 := by
        intro zero
        have equal : clearLowByte witness = key := (BitVec.xor_eq_zero_iff.mp zero).symm
        simp [Trie.find, equal] at absent
      cases slot with
      | root => exact absurd rfl (notRoot old rfl)
      | child owner branch =>
          obtain ⟨parent, parentMapped, pointerEq, rfl⟩ := id holds
          rw [insertLoop, holds.read]
          simp only [Trie.ptr_leaf, isLeaf_or_one, if_true, notNull, if_false,
            NodeSlot.keyCursor, parentMapped, different, ne_eq, not_false_eq_true,
            guard_true, Option.bind_eq_bind, Option.bind_some, Option.pure_def]
          exact graft_refines mapped holds avoids fresh rep
  | node address keys children induction =>
      intro trie slot witness fuel mapped rep holds nodup fresh avoids valued _
        absent enough
      obtain ⟨fuel, rfl⟩ := Nat.exists_eq_succ_of_ne_zero (Nat.ne_zero_of_lt enough)
      rw [insertLoop, holds.read]
      simp only [Trie.ptr_node, rep.isLeaf_ptr, rep.1, Trie.record_branch,
        Trie.record_prefixEnd, Trie.record_keys, Bool.false_eq_true, if_false, Option.bind_eq_bind, Option.bind_some]
      rw [Trie.insert]
      by_cases inside : (key ^^^ keys false) &&& (~~~1#64) <<< Trie.prefixEnd keys = 0
      · rw [if_pos inside, if_pos inside]
        generalize taken : key.getLsbD (Trie.prefixEnd keys) = branch
        have parts := Trie.child_addresses_nodup nodup branch
        have newNe : newNode ≠ address := fun equal =>
          fresh (by simp [Trie.addresses, equal])
        have childAvoids : NodeSlot.Avoids (.child address branch)
            (newNode :: (children branch).addresses) := by
          simp only [NodeSlot.Avoids, List.mem_cons, not_or]
          exact ⟨newNe.symm, parts.2.1⟩
        have childAbsent : (children branch).find key (keys branch) = none := by
          rw [Trie.find, taken] at absent
          exact absent
        have shallow : (children branch).depth < fuel := by
          simp only [Trie.depth] at enough
          cases branch <;> omega
        obtain ⟨after, result, childRep, same⟩ := @induction branch _
          (.child address branch) _ _ mapped (rep.child branch)
          ⟨_, rep.1, rfl, rfl⟩ parts.1
          (fun member => fresh (Trie.child_addresses_subset branch member))
          childAvoids (valued.child branch) (by simp) childAbsent shallow
        refine ⟨after, result, ?_, ?_⟩
        · have replaced := rep.replace_child nodup same childAvoids ?_ childRep
          · rwa [Trie.record_keys, Function.update_eq_self] at replaced
          · intro node member
            rw [List.mem_cons, not_or]
            exact ⟨ne_of_mem_of_not_mem
              (Trie.child_addresses_subset (!branch) member) fresh,
              parts.2.2 node member⟩
        · refine same.of_child holds ?_ (by simp [Trie.addresses])
          intro node member
          rcases List.mem_cons.mp member with isNew | member
          · rw [isNew]
            exact List.mem_cons_self
          · exact List.mem_cons_of_mem _ (Trie.child_addresses_subset branch member)
      · rw [if_neg inside, if_neg inside]
        exact graft_refines mapped holds
          avoids fresh rep

end Insert

/-! ## Removal -/

section Remove

variable {trie : PTrie} {key : Word}

/-- Moving the sibling's key up and relinking the cursor rewrite exactly the
cursor's two words. -/
theorem PTrie.liftKey_write {sibling : Trie} {slot : NodeSlot} {node : PTrieNode}
    {branch : Bool} {pointer witness : Word} (rep : Rep trie sibling)
    (valued : sibling.Valued) (siblingEq : node.childNodes (!branch) = sibling.ptr)
    (holds : slot.Holds trie pointer witness)
    (notRoot : ∀ value, sibling = .leaf value → slot ≠ .root) :
    ((trie.liftKey node branch slot.keyCursor).bind fun lifted =>
        lifted.write slot sibling.ptr) =
      some (slot.plug trie sibling.ptr
        (Trie.liftedKey sibling (node.keys (!branch)) witness)) := by
  cases sibling with
  | null => simp [liftKey, siblingEq, holds.write, Trie.liftedKey]
  | node address keys children =>
      simp [liftKey, siblingEq, holds.write, Trie.liftedKey, rep.isLeaf_ptr]
  | leaf value =>
      have notNull : value ||| 1 ≠ ptrieNullNode :=
        or_one_ne_nullNode valued.1 valued.2
      cases slot with
      | root => exact absurd rfl (notRoot value rfl)
      | child owner side =>
          obtain ⟨parent, mapped, _, rfl⟩ := holds
          simp only [liftKey, siblingEq, Trie.ptr_leaf, isLeaf_or_one, Bool.true_and,
            bne_iff_ne, ne_eq, notNull, not_false_eq_true, if_true,
            NodeSlot.keyCursor, mapped, Option.bind_eq_bind, Option.bind_some,
            Option.pure_def, write, deref_setNode_self mapped, NodeSlot.plug,
            Trie.liftedKey]
          simp [setNode]

theorem PTrie.removeLoop_refines {tree : Trie} :
    ∀ {trie : PTrie} {slot : NodeSlot} {witness : Word} {fuel : Nat}
      {after : Trie} {afterKey value removed : Word},
      Rep trie tree → slot.Holds trie tree.ptr witness → tree.addresses.Nodup →
      slot.Avoids tree.addresses → tree.Valued →
      (∀ old, after = .leaf old → slot ≠ .root) → tree.depth < fuel →
      tree.remove key witness = some (after, afterKey, value, removed) →
      ∃ next, removeLoop key fuel trie slot slot.keyCursor = some (next, value) ∧
        Rep next after ∧
        SameOutside tree.addresses next (slot.plug trie after.ptr afterKey) ∧
        tree.addresses.Perm (removed :: after.addresses) ∧
        next.freeNodesList = removed ∧
        ∃ record, next.nodes removed = some record ∧
          record.keys false = trie.freeNodesList := by
  induction tree with
  | null =>
      intro trie slot witness fuel after afterKey value removed _ _ _ _ _ _ _ result
      cases result
  | leaf old =>
      intro trie slot witness fuel after afterKey value removed _ _ _ _ _ _ _ result
      cases result
  | node address keys children induction =>
      intro trie slot witness fuel after afterKey value removed rep holds nodup
        avoids valued notRoot enough result
      obtain ⟨fuel, rfl⟩ := Nat.exists_eq_succ_of_ne_zero (Nat.ne_zero_of_lt enough)
      rw [Trie.remove] at result
      rw [removeLoop, holds.read]
      simp only [Trie.ptr_node, rep.1, Trie.record_branch, Trie.record_keys,
        Trie.record_childNodes, Option.bind_eq_bind, Option.bind_some]
      generalize taken : key.getLsbD (Trie.prefixEnd keys) = branch at result ⊢
      have parts := Trie.child_addresses_nodup nodup (!branch)
      cases child : children branch with
      | null => simp [child] at result
      | leaf old =>
          have isValue : Trie.IsValue old := by
            have childValued := valued.child branch
            rwa [child] at childValued
          simp only [child, Option.ite_none_right_eq_some, Option.some.injEq,
            Prod.mk.injEq] at result
          obtain ⟨equal, rfl, rfl, rfl, rfl⟩ := result
          have written := @liftKey_write _ _ _ (Trie.record keys children) _ _ _ (rep.child (!branch))
            (valued.child (!branch)) rfl holds notRoot
          have addressMem : address ∈ (Trie.node address keys children).addresses := by
            simp [Trie.addresses]
          have removedMapped : (slot.plug trie (children (!branch)).ptr
              (Trie.liftedKey (children (!branch)) (keys (!branch)) witness)).deref
                address = some (Trie.record keys children) := by
            rw [deref_congr (NodeSlot.plug_nodes_of_mem avoids addressMem)]
            exact rep.1
          simp only [Trie.ptr_leaf, isLeaf_or_one, if_true, equal, ne_eq, guard_true,
            Option.bind_some, Option.pure_def]
          have notNull : old ||| 1 ≠ ptrieNullNode :=
            or_one_ne_nullNode isValue.1 isValue.2
          simp only [notNull, not_false_eq_true, guard_true, Option.pure_def,
            Option.bind_some]
          rw [← Option.bind_assoc, written]
          simp only [Trie.record_keys, Option.bind_some, removedMapped,
            or_one_and_not_one isValue.1]
          refine ⟨_, rfl, ?_, ?_, ?_, rfl, _, setNode_nodes_self _ _ _, ?_⟩
          · refine (rep.child (!branch)).congr fun node member => ?_
            have nodeNe : node ≠ address := ne_of_mem_of_not_mem member parts.2.1
            refine (setNode_nodes_of_ne _ nodeNe _).trans ?_
            exact NodeSlot.plug_nodes_of_mem avoids
              (Trie.child_addresses_subset (!branch) member)
          · refine ⟨fun node outside => ?_, rfl⟩
            exact setNode_nodes_of_ne _
              (ne_of_mem_of_not_mem addressMem outside).symm _
          · cases branch <;> simp only [Trie.addresses, child, Bool.not_true,
              Bool.not_false, List.nil_append, List.append_nil, List.Perm.refl]
          · simp only [Function.update_self, NodeSlot.plug_freeNodesList]
      | node childAddress childKeys grandchildren =>
          have childRep := rep.child branch
          have childNodup := Trie.child_addresses_nodup nodup branch
          have shallow : (children branch).depth < fuel := by
            simp only [Trie.depth] at enough
            cases branch <;> omega
          have notLeaf : isLeaf childAddress = false := by
            rw [child] at childRep
            exact childRep.isLeaf_ptr
          cases inner : Trie.remove key (children branch) (keys branch) with
          | none =>
              rw [child] at inner
              simp [child, inner] at result
          | some found =>
              obtain ⟨childAfter, childKey, childValue, childRemoved⟩ := found
              simp only [child] at inner
              simp only [child, inner, Option.bind_eq_bind, Option.bind_some,
                Option.pure_def, Option.some.injEq, Prod.mk.injEq] at result
              obtain ⟨rfl, rfl, rfl, rfl⟩ := result
              rw [← child] at inner
              obtain ⟨next, looped, nextRep, same, perm, freed⟩ :=
                @induction branch _ (.child address branch) _ _ _ _ _ _ childRep
                  ⟨_, rep.1, rfl, rfl⟩ childNodup.1 childNodup.2.1
                  (valued.child branch) (by simp) shallow inner
              simp only [Trie.ptr_node, notLeaf, Bool.false_eq_true, if_false]
              refine ⟨next, looped, ?_, ?_, ?_, freed⟩
              · exact rep.replace_child nodup same childNodup.2.1 childNodup.2.2
                  nextRep
              · exact same.of_child holds
                  (fun node => Trie.child_addresses_subset branch)
                  (by simp [Trie.addresses])
              · exact @Trie.perm_replace_child _ keys _ _ _ _ [_] [] perm

end Remove

end MallocSurvey.Ltalloc
