import MallocSurvey.Ltalloc.PTrieRefinement

/-! # The trie as a finite map over whole histories -/

namespace MallocSurvey.Ltalloc

open Library

namespace Trie

theorem graft_addresses (below : Trie) (pkey x key value newNode : Word) :
    (below.graft pkey x key value newNode).addresses =
      newNode :: below.addresses := by
  unfold graft
  cases key.getLsbD (bsr x) <;> simp [addresses]

theorem insert_addresses (key value newNode stale : Word) (tree : Trie) :
    ∀ witness : Word, (tree.insert key value newNode stale witness).addresses.Perm
      (newNode :: tree.addresses) := by
  induction tree with
  | null =>
      intro _
      simp [insert, addresses]
  | leaf old =>
      intro witness
      rw [insert, graft_addresses]
  | node address keys children induction =>
      intro witness
      simp only [insert]
      generalize key.getLsbD (prefixEnd keys) = branch
      split_ifs with inside
      · exact (@perm_replace_child _ _ keys _ _ _ [] [newNode]
          (induction branch (keys branch)).symm).symm
      · rw [graft_addresses]

theorem Valued.of_find {tree : Trie} {key value : Word} :
    ∀ {witness : Word}, tree.Valued → tree.find key witness = some value →
      IsValue value := by
  induction tree with
  | null =>
      intro _ _ found
      cases found
  | leaf old =>
      intro _ isValue found
      simp only [find, Option.ite_none_right_eq_some, Option.some.injEq] at found
      exact found.2 ▸ isValue
  | node address keys children induction =>
      intro _ valued found
      exact induction _ (valued.child _) found

theorem find_root {tree : Trie} (notLeaf : ∀ value, tree ≠ .leaf value)
    (key left right : Word) : tree.find key left = tree.find key right := by
  cases tree with
  | null => rfl
  | leaf value => exact absurd rfl (notLeaf value)
  | node _ _ _ => rfl

theorem ne_leaf_of_nullCount {tree : Trie} (count : tree.nullCount = 1)
    (value : Word) : tree ≠ .leaf value := by
  intro equal
  rw [equal] at count
  cases count

/-- The child cursors that hold a null pointer. -/
def nullSlots : Trie → Word → Bool → List (Word × Bool)
  | null, owner, branch => [(owner, branch)]
  | leaf _, _, _ => []
  | node address _ children, _, _ =>
      nullSlots (children false) address false ++
        nullSlots (children true) address true

theorem nullSlots_length (tree : Trie) (owner : Word) (branch : Bool) :
    (tree.nullSlots owner branch).length = tree.nullCount := by
  induction tree generalizing owner branch with
  | null => rfl
  | leaf _ => rfl
  | node address keys children induction =>
      simp [nullSlots, nullCount, induction]

end Trie

theorem Trie.eq_null_of_ptr {trie : PTrie} {tree : Trie} (rep : Rep trie tree)
    (valued : tree.Valued) (isNull : tree.ptr = ptrieNullNode) : tree = .null := by
  cases tree with
  | null => rfl
  | leaf value => exact absurd isNull (or_one_ne_nullNode valued.1 valued.2)
  | node _ _ _ => exact absurd isNull rep.ptr_ne_nullNode

/-! ## Reachable nodes -/

namespace PTrie

/-- The nodes that the root pointer leads to. -/
inductive InTree (trie : PTrie) : Word → Prop
  | root : isLeaf trie.root = false → InTree trie trie.root
  | child {node : Word} {record : PTrieNode} {branch : Bool} :
      InTree trie node → trie.deref node = some record →
      isLeaf (record.childNodes branch) = false →
      InTree trie (record.childNodes branch)

theorem not_inTree_of_root {trie : PTrie} (isNull : trie.root = ptrieNullNode)
    {node : Word} : ¬ trie.InTree node := by
  intro inTree
  induction inTree with
  | root even =>
      rw [isNull] at even
      cases even
  | child _ _ _ absurd => exact absurd

/-- `slot` is a null child of a node of the tree. -/
def NullChild (trie : PTrie) (slot : Word × Bool) : Prop :=
  trie.InTree slot.1 ∧
    ∃ record, trie.deref slot.1 = some record ∧
      record.childNodes slot.2 = ptrieNullNode

/-- A node that an insertion may be given: allocated and outside the tree. -/
def Fresh (trie : PTrie) (newNode : Word) : Prop :=
  (∃ stale, trie.deref newNode = some stale) ∧ ¬ trie.InTree newNode

end PTrie

/-! ## The free node list -/

namespace PTrie

theorem write_freeNodesList {trie after : PTrie} {slot : NodeSlot} {value : Word}
    (written : trie.write slot value = some after) :
    after.freeNodesList = trie.freeNodesList := by
  cases slot with
  | root =>
      cases written
      rfl
  | child owner branch =>
      simp only [write, Option.bind_eq_bind, Option.bind_eq_some_iff, Option.pure_def,
        Option.some.injEq] at written
      obtain ⟨_, _, rfl⟩ := written
      rfl

theorem graft_freeNodesList {trie after : PTrie} {slot : NodeSlot}
    {n pkey x key value newNode : Word}
    (grafted : trie.graft slot n pkey x key value newNode = some after) :
    after.freeNodesList = trie.freeNodesList := by
  simp only [graft, Option.bind_eq_bind, Option.bind_eq_some_iff] at grafted
  obtain ⟨_, _, written⟩ := grafted
  have kept := write_freeNodesList written
  exact kept

theorem insertLoop_freeNodesList {key value newNode : Word} {fuel : Nat} :
    ∀ {trie after : PTrie} {slot : NodeSlot} {prevKey : Option (Word × Bool)},
      insertLoop key value newNode fuel trie slot prevKey = some after →
      after.freeNodesList = trie.freeNodesList := by
  induction fuel with
  | zero =>
      intro _ _ _ _ looped
      cases looped
  | succ fuel induction =>
      intro trie after slot prevKey looped
      simp only [insertLoop, Option.bind_eq_bind, Option.bind_eq_some_iff] at looped
      obtain ⟨n, _, looped⟩ := looped
      split_ifs at looped with leaf isNull
      · simp only [Option.bind_eq_some_iff, Option.pure_def, Option.some.injEq] at looped
        obtain ⟨linked, written, _, _, rfl⟩ := looped
        have kept := write_freeNodesList written
        exact kept
      · simp only [Option.bind_eq_some_iff] at looped
        obtain ⟨_, _, _, _, _, _, grafted⟩ := looped
        exact graft_freeNodesList grafted
      · simp only [Option.bind_eq_some_iff] at looped
        obtain ⟨_, _, looped⟩ := looped
        split_ifs at looped
        · exact induction looped
        · exact graft_freeNodesList looped

theorem insert_freeNodesList {trie after : PTrie} {key value newNode : Word}
    (inserted : trie.insert key value newNode = some after) :
    after.freeNodesList = trie.freeNodesList := by
  simp only [insert, Option.bind_eq_bind, Option.bind_eq_some_iff] at inserted
  obtain ⟨_, _, looped⟩ := inserted
  exact insertLoop_freeNodesList looped

end PTrie

/-- `trie` stores `tree`, which is the table of `contents`. -/
structure Represents (trie : PTrie) (tree : Trie)
    (contents : Word → Option Word) : Prop where
  root : trie.root = tree.ptr
  rep : Rep trie tree
  nodup : tree.addresses.Nodup
  valid : tree.Valid 64 0
  nullCount : tree.nullCount = 1
  find_eq : ∀ key, lowByte key = 0 → tree.find key 0 = contents key
  aligned : ∀ key value, contents key = some value → lowByte key = 0

namespace Represents

variable {trie : PTrie} {tree : Trie} {contents : Word → Option Word}

/-- Only the root and the nodes of the tree matter. -/
theorem congr {other : PTrie} (represents : Represents trie tree contents)
    (root : other.root = trie.root)
    (nodes : ∀ node ∈ tree.addresses, other.nodes node = trie.nodes node) :
    Represents other tree contents :=
  { represents with
    root := root.trans represents.root
    rep := represents.rep.congr nodes }

theorem mem_addresses_of_inTree (represents : Represents trie tree contents)
    {node : Word} (inTree : trie.InTree node) : node ∈ tree.addresses := by
  have childMem : ∀ {subtree : Trie} {parent : Word} {record : PTrieNode}
      {branch : Bool}, Rep trie subtree → parent ∈ subtree.addresses →
      trie.deref parent = some record → isLeaf (record.childNodes branch) = false →
      record.childNodes branch ∈ subtree.addresses := by
    intro subtree
    induction subtree with
    | null => intro _ _ _ _ member; cases member
    | leaf _ => intro _ _ _ _ member; cases member
    | node address keys children induction =>
        intro parent record branch rep member mapped even
        simp only [Trie.addresses, List.mem_cons, List.mem_append] at member
        rcases member with isOwner | member | member
        · subst isOwner
          rw [rep.1, Option.some.injEq] at mapped
          subst mapped
          apply Trie.child_addresses_subset branch
          rw [Trie.record_childNodes] at even ⊢
          cases child : children branch with
          | null => rw [child] at even; cases even
          | leaf value => rw [child, Trie.ptr_leaf, isLeaf_or_one] at even; cases even
          | node _ _ _ => simp [Trie.addresses]
        · exact Trie.child_addresses_subset false
            (induction false (rep.child false) member mapped even)
        · exact Trie.child_addresses_subset true
            (induction true (rep.child true) member mapped even)
  induction inTree with
  | root even =>
      rw [represents.root] at even ⊢
      cases tree with
      | null => cases even
      | leaf value => exact absurd rfl (Trie.ne_leaf_of_nullCount represents.nullCount value)
      | node _ _ _ => simp [Trie.addresses]
  | child _ mapped even member => exact childMem represents.rep member mapped even

theorem inTree_of_mem_addresses (represents : Represents trie tree contents)
    {node : Word} (member : node ∈ tree.addresses) : trie.InTree node := by
  have below : ∀ {subtree : Trie}, Rep trie subtree →
      (isLeaf subtree.ptr = false → trie.InTree subtree.ptr) →
      ∀ node ∈ subtree.addresses, trie.InTree node := by
    intro subtree
    induction subtree with
    | null => intro _ _ _ member; cases member
    | leaf _ => intro _ _ _ member; cases member
    | node address keys children induction =>
        intro rep reached node member
        have owner : trie.InTree address := reached rep.isLeaf_ptr
        simp only [Trie.addresses, List.mem_cons, List.mem_append] at member
        rcases member with isOwner | member | member
        · rw [isOwner]
          exact owner
        · exact induction false (rep.child false)
            (fun even => .child owner rep.1 even) node member
        · exact induction true (rep.child true)
            (fun even => .child owner rep.1 even) node member
  refine below represents.rep (fun even => ?_) node member
  rw [← represents.root] at even ⊢
  exact .root even

theorem depth_lt (represents : Represents trie tree contents) :
    tree.depth < PTrie.descentBound := by
  have depth := represents.valid.depth_le
  unfold PTrie.descentBound
  omega

theorem root_holds (represents : Represents trie tree contents) (witness : Word) :
    NodeSlot.Holds trie .root tree.ptr witness := represents.root

theorem ne_leaf (represents : Represents trie tree contents) (value : Word) :
    tree ≠ .leaf value :=
  Trie.ne_leaf_of_nullCount represents.nullCount value

theorem isValue_of_contents (represents : Represents trie tree contents)
    {key value : Word} (present : contents key = some value) :
    Trie.IsValue value :=
  represents.valid.valued.of_find
    ((represents.find_eq key (represents.aligned key value present)).trans present)

theorem lookup_eq (represents : Represents trie tree contents) {key value : Word}
    (present : contents key = some value) : trie.lookup key = some value := by
  have aligned := represents.aligned key value present
  have found := (represents.find_eq key aligned).trans present
  obtain ⟨owner, branch, last, looped, mapped, compared⟩ :=
    PTrie.lookupLoop_refines represents.rep
      (represents.root_holds 0)
      (fun old equal => absurd equal (represents.ne_leaf old)) found
      represents.depth_lt
  rw [← represents.root] at looped
  simp only [NodeSlot.keyCursor] at looped
  simp only [PTrie.lookup, looped, mapped, compared, Option.bind_eq_bind,
    Option.bind_some, guard_true, Option.pure_def]
  rw [or_one_and_not_one (represents.isValue_of_contents present).1]

theorem insert_eq (represents : Represents trie tree contents)
    {key value newNode : Word} (aligned : lowByte key = 0)
    (isValue : Trie.IsValue value) (absent : contents key = none)
    (fresh : trie.Fresh newNode) :
    ∃ after afterTree, trie.insert key value newNode = some after ∧
      Represents after afterTree (Function.update contents key (some value)) ∧
      afterTree.addresses.Perm (newNode :: tree.addresses) ∧
      ∀ node, node ∉ newNode :: tree.addresses →
        after.nodes node = trie.nodes node := by
  obtain ⟨⟨stale, mapped⟩, notInTree⟩ := fresh
  have notMember : newNode ∉ tree.addresses := fun member =>
    notInTree (represents.inTree_of_mem_addresses member)
  have notFound : tree.find key 0 = none := (represents.find_eq key aligned).trans absent
  obtain ⟨after, looped, rep, same⟩ := PTrie.insertLoop_refines mapped represents.rep (represents.root_holds 0)
    represents.nodup notMember trivial represents.valid.valued
    (fun old equal => absurd equal (represents.ne_leaf old)) notFound
    represents.depth_lt
  have outcome := @Trie.insert_outcome _ _ _ newNode (stale.keys true) _ _ represents.valid (by omega)
    (AgreeFrom.of_width_le (by omega)) aligned isValue notFound
  have perm := Trie.insert_addresses key value newNode (stale.keys true) tree 0
  refine ⟨after, _, ?_, ⟨same.root, rep,
    perm.nodup_iff.mpr (List.nodup_cons.mpr ⟨notMember, represents.nodup⟩),
    outcome.valid, outcome.nullCount_eq.trans represents.nullCount, ?_, ?_⟩, perm,
    same.nodes⟩
  · simp only [NodeSlot.keyCursor] at looped
    simp only [PTrie.insert, isValue.1, aligned, and_self, guard_true,
      Option.bind_eq_bind, Option.pure_def, Option.bind_some]
    exact looped
  · intro other otherAligned
    rw [outcome.find_eq other otherAligned, represents.find_eq other otherAligned,
      Function.update_apply]
  · intro other stored present
    rw [Function.update_apply] at present
    split_ifs at present with same
    · exact same ▸ aligned
    · exact represents.aligned other stored present

theorem root_ne_nullNode (represents : Represents trie tree contents)
    {key value : Word} (present : contents key = some value) :
    trie.root ≠ ptrieNullNode := by
  have found := (represents.find_eq key
    (represents.aligned key value present)).trans present
  rw [represents.root]
  cases tree with
  | null => cases found
  | leaf old => exact absurd rfl (represents.ne_leaf old)
  | node _ _ _ => exact represents.rep.ptr_ne_nullNode

theorem remove_eq (represents : Represents trie tree contents) {key value : Word}
    (present : contents key = some value) :
    ∃ after afterTree, trie.remove key = some (after, value) ∧
      Represents after afterTree (Function.update contents key none) ∧
      tree.addresses.Perm (after.freeNodesList :: afterTree.addresses) ∧
      (∀ node, node ∉ tree.addresses → after.nodes node = trie.nodes node) ∧
      ∃ record, after.nodes after.freeNodesList = some record ∧
        record.keys false = trie.freeNodesList := by
  have aligned := represents.aligned key value present
  have found := (represents.find_eq key aligned).trans present
  obtain ⟨afterTree, afterKey, removed, result, outcome, _, _⟩ :=
    Trie.remove_outcome aligned represents.valid (by omega) represents.ne_leaf found
  have count : afterTree.nullCount = 1 :=
    outcome.nullCount_eq.trans represents.nullCount
  obtain ⟨after, looped, rep, same, perm, freed, linked⟩ := PTrie.removeLoop_refines represents.rep (represents.root_holds 0) represents.nodup trivial
    represents.valid.valued
    (fun old equal => absurd equal (Trie.ne_leaf_of_nullCount count old))
    represents.depth_lt result
  have nodup := (List.nodup_cons.mp (perm.nodup_iff.mp represents.nodup)).2
  refine ⟨after, afterTree, ?_, ⟨same.root, rep, nodup,
    outcome.valid.weaken (Nat.le_refl _) (AgreeFrom.of_width_le (by omega)), count,
    ?_, ?_⟩, freed ▸ perm, same.nodes, freed ▸ linked⟩
  · simp only [NodeSlot.keyCursor] at looped
    simp only [PTrie.remove, represents.root_ne_nullNode present, ne_eq,
      not_false_eq_true, guard_true, Option.bind_eq_bind, Option.pure_def,
      Option.bind_some]
    exact looped
  · intro other otherAligned
    rw [Trie.find_root (Trie.ne_leaf_of_nullCount count) other 0 afterKey,
      outcome.find_eq other otherAligned, represents.find_eq other otherAligned,
      Function.update_apply]
  · intro other stored stillPresent
    rw [Function.update_apply] at stillPresent
    split_ifs at stillPresent
    exact represents.aligned other stored stillPresent

theorem mem_nullSlots_iff (represents : Represents trie tree contents)
    (slot : Word × Bool) {address : Word} {keys : Bool → Word}
    {children : Bool → Trie} (isNode : tree = .node address keys children) :
    slot ∈ tree.nullSlots 0 false ↔ trie.NullChild slot := by
  have general : ∀ {subtree : Trie} {owner : Word} {branch : Bool},
      Rep trie subtree → subtree.Valued →
      (slot ∈ subtree.nullSlots owner branch ↔
        (subtree = .null ∧ slot = (owner, branch)) ∨
          (slot.1 ∈ subtree.addresses ∧ ∃ record, trie.deref slot.1 = some record ∧
            record.childNodes slot.2 = ptrieNullNode)) := by
    intro subtree
    induction subtree with
    | null =>
        intro owner branch _ _
        simp [Trie.nullSlots, Trie.addresses]
    | leaf value =>
        intro owner branch _ _
        simp [Trie.nullSlots, Trie.addresses]
    | node address keys children induction =>
        intro owner branch rep valued
        have left := @induction false address false
          (rep.child false) (valued.child false)
        have right := @induction true address true
          (rep.child true) (valued.child true)
        have own (side : Bool) : (children side = .null ∧ slot = (address, side)) →
            ∃ record, trie.deref slot.1 = some record ∧
              record.childNodes slot.2 = ptrieNullNode := by
          rintro ⟨isNull, isSlot⟩
          rw [isSlot]
          refine ⟨_, rep.1, ?_⟩
          rw [Trie.record_childNodes, isNull, Trie.ptr_null]
        simp only [Trie.nullSlots, List.mem_append, left, right, Trie.addresses,
          List.mem_cons, reduceCtorEq, false_and, false_or]
        constructor
        · intro member
          rcases member with (here | ⟨below, record⟩) | (here | ⟨below, record⟩)
          · exact ⟨.inl (congrArg Prod.fst here.2), own false here⟩
          · exact ⟨.inr (.inl below), record⟩
          · exact ⟨.inl (congrArg Prod.fst here.2), own true here⟩
          · exact ⟨.inr (.inr below), record⟩
        · rintro ⟨member, record⟩
          rcases member with isOwner | below | below
          · obtain ⟨stored, mapped, isNull⟩ := record
            rw [isOwner, rep.1, Option.some.injEq] at mapped
            rw [← mapped, Trie.record_childNodes] at isNull
            have child := Trie.eq_null_of_ptr (rep.child slot.2)
              (valued.child slot.2) isNull
            obtain ⟨node, side⟩ := slot
            cases side with
            | false => exact .inl (.inl ⟨child, Prod.ext isOwner rfl⟩)
            | true => exact .inr (.inl ⟨child, Prod.ext isOwner rfl⟩)
          · exact .inl (.inr ⟨below, record⟩)
          · exact .inr (.inr ⟨below, record⟩)
  rw [general represents.rep represents.valid.valued]
  constructor
  · intro member
    rcases member with ⟨isNull, _⟩ | ⟨member, record⟩
    · rw [isNode] at isNull
      cases isNull
    · exact ⟨represents.inTree_of_mem_addresses member, record⟩
  · rintro ⟨inTree, record⟩
    exact .inr ⟨represents.mem_addresses_of_inTree inTree, record⟩

/-- Only the empty tree has no null child to name. -/
theorem existsUnique_nullChild (represents : Represents trie tree contents)
    (notNull : trie.root ≠ ptrieNullNode) : ∃! slot, trie.NullChild slot := by
  cases isNode : tree with
  | null => exact absurd (represents.root.trans (isNode ▸ rfl)) notNull
  | leaf value => exact absurd isNode (represents.ne_leaf value)
  | node address keys children =>
      have single : (tree.nullSlots 0 false).length = 1 :=
        (tree.nullSlots_length 0 false).trans represents.nullCount
      obtain ⟨slot, isSingle⟩ := List.length_eq_one_iff.mp single
      refine ⟨slot, ?_, fun other isNull => ?_⟩
      · change trie.NullChild slot
        rw [← represents.mem_nullSlots_iff slot isNode, isSingle]
        exact List.mem_singleton_self slot
      · have member := (represents.mem_nullSlots_iff other isNode).mpr isNull
        rw [isSingle] at member
        exact List.mem_singleton.mp member

theorem root_eq_nullNode_iff (represents : Represents trie tree contents) :
    trie.root = ptrieNullNode ↔ contents = fun _ => none := by
  constructor
  · intro isNull
    funext key
    cases present : contents key with
    | none => rfl
    | some value => exact absurd isNull (represents.root_ne_nullNode present)
  · intro isEmpty
    cases isNode : tree with
    | null => rw [represents.root, isNode, Trie.ptr_null]
    | leaf value => exact absurd isNode (represents.ne_leaf value)
    | node address keys children =>
        obtain ⟨key, value, aligned, found⟩ :=
          represents.valid.exists_find (by omega) (by simp [isNode])
            represents.nullCount.le
        rw [represents.find_eq key aligned, isEmpty] at found
        cases found

end Represents

/-! ## Histories -/

inductive PTrieOp
  | insert (key value newNode : Word)
  | remove (key : Word)

/-- A history of insertions of absent keys and removals of present keys, the
trie it leaves and the values last inserted for the keys present. -/
inductive PTrieRun : List PTrieOp → PTrie → (Word → Option Word) → Prop
  | init (nodes : Word → Option PTrieNode) (freeNodesList : Word) :
      PTrieRun [] { nodes, root := ptrieNullNode, freeNodesList } (fun _ => none)
  | insert {ops trie contents after} {key value newNode : Word} :
      PTrieRun ops trie contents → lowByte key = 0 → Trie.IsValue value →
      contents key = none → trie.Fresh newNode →
      trie.insert key value newNode = some after →
      PTrieRun (ops ++ [.insert key value newNode]) after
        (Function.update contents key (some value))
  | remove {ops trie contents after} {key value result : Word} :
      PTrieRun ops trie contents → contents key = some value →
      trie.remove key = some (after, result) →
      PTrieRun (ops ++ [.remove key]) after (Function.update contents key none)

theorem PTrieRun.represents {ops : List PTrieOp} {trie : PTrie}
    {contents : Word → Option Word} (run : PTrieRun ops trie contents) :
    ∃ tree, Represents trie tree contents := by
  induction run with
  | init nodes freeNodesList =>
      exact ⟨.null, rfl, trivial, List.nodup_nil, .null, rfl, fun _ _ => rfl,
        fun _ _ present => nomatch present⟩
  | insert _ aligned isValue absent fresh inserted induction =>
      obtain ⟨tree, represents⟩ := induction
      obtain ⟨after, afterTree, result, afterRepresents, _⟩ :=
        represents.insert_eq aligned isValue absent fresh
      cases result.symm.trans inserted
      exact ⟨afterTree, afterRepresents⟩
  | remove _ present removed induction =>
      obtain ⟨tree, represents⟩ := induction
      obtain ⟨after, afterTree, result, afterRepresents, _⟩ := represents.remove_eq present
      cases result.symm.trans removed
      exact ⟨afterTree, afterRepresents⟩

/-- The trie answers as `contents` does, and the next operations of a history
succeed. -/
structure PTrieMapOf (trie : PTrie) (contents : Word → Option Word) : Prop where
  lookup : ∀ key value, contents key = some value → trie.lookup key = some value
  insert : ∀ key value newNode, lowByte key = 0 → Trie.IsValue value →
    contents key = none → trie.Fresh newNode →
    ∃ after, trie.insert key value newNode = some after ∧
      after.lookup key = some value ∧
      ∀ other stored, contents other = some stored → after.lookup other = some stored
  remove : ∀ key value, contents key = some value →
    ∃ after, trie.remove key = some (after, value) ∧
      ∀ other stored, other ≠ key → contents other = some stored →
        after.lookup other = some stored

theorem Represents.mapOf {trie : PTrie} {tree : Trie} {contents : Word → Option Word}
    (represents : Represents trie tree contents) : PTrieMapOf trie contents where
  lookup _ _ present := represents.lookup_eq present
  insert key value newNode aligned isValue absent fresh := by
    obtain ⟨after, _, inserted, afterRepresents, _⟩ :=
      represents.insert_eq aligned isValue absent fresh
    refine ⟨after, inserted, ?_, fun other stored present => ?_⟩
    · exact afterRepresents.lookup_eq (Function.update_self _ _ _)
    · apply afterRepresents.lookup_eq
      rw [Function.update_of_ne _, present]
      intro equal
      rw [equal, absent] at present
      cases present
  remove key value present := by
    obtain ⟨after, _, removed, afterRepresents, _⟩ := represents.remove_eq present
    refine ⟨after, removed, fun other stored different otherPresent => ?_⟩
    apply afterRepresents.lookup_eq
    rw [Function.update_of_ne different, otherPresent]

/-- Over every history the trie is a map of the keys present, with one null
child among its nodes or a null root, the latter while no key is present. -/
theorem ptrie_refines_map {ops : List PTrieOp} {trie : PTrie}
    {contents : Word → Option Word} (run : PTrieRun ops trie contents) :
    PTrieMapOf trie contents ∧
      ((∃! slot, trie.NullChild slot) ∨ trie.root = ptrieNullNode) ∧
      (trie.root = ptrieNullNode ↔ contents = fun _ => none) := by
  obtain ⟨tree, represents⟩ := run.represents
  refine ⟨represents.mapOf, ?_, represents.root_eq_nullNode_iff⟩
  by_cases isNull : trie.root = ptrieNullNode
  · exact .inr isNull
  · exact .inl (represents.existsUnique_nullChild isNull)

/-- Memory with one blank node, at address 4096. -/
def oneBlankNode : PTrie where
  nodes address := if address = 4096 then some ⟨fun _ => 0, fun _ => 0⟩ else none
  root := ptrieNullNode
  freeNodesList := 0

theorem oneBlankNode_run :
    ∃ after, oneBlankNode.insert 256 2 4096 = some after ∧
      PTrieRun [.insert 256 2 4096] after
        (Function.update (fun _ => none) 256 (some 2)) := by
  refine ⟨_, rfl, .insert (.init oneBlankNode.nodes 0) (by decide)
    ⟨rfl, by decide⟩ rfl ?_ rfl⟩
  exact ⟨⟨_, rfl⟩, PTrie.not_inTree_of_root rfl⟩

theorem oneBlankNode_insert_map :
    ∃ after, oneBlankNode.insert 256 2 4096 = some after ∧
      after.lookup 256 = some 2 ∧ (∃! slot, after.NullChild slot) := by
  obtain ⟨after, inserted, run⟩ := oneBlankNode_run
  obtain ⟨mapOf, nullChild, rootNull⟩ := ptrie_refines_map run
  refine ⟨after, inserted, mapOf.lookup 256 2 rfl, ?_⟩
  rcases nullChild with unique | isNull
  · exact unique
  · exact absurd (congrFun (rootNull.mp isNull) 256) (by simp)

/-- Removing the only key leaves a null root after an insertion. -/
theorem oneBlankNode_emptied :
    ∃ trie, PTrieRun [.insert 256 2 4096, .remove 256] trie
        (Function.update (Function.update (fun _ => none) 256 (some 2)) 256 none) ∧
      trie.root = ptrieNullNode ∧ ¬ ∃! slot, trie.NullChild slot := by
  obtain ⟨after, inserted, run⟩ := oneBlankNode_run
  cases inserted
  refine ⟨_, run.remove (Function.update_self _ _ _) rfl, rfl, ?_⟩
  intro ⟨slot, isNull, _⟩
  exact PTrie.not_inTree_of_root rfl isNull.1

end MallocSurvey.Ltalloc
