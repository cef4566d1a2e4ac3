import MallocSurvey.Library.Slab
import MallocSurvey.Ltalloc.PTrieMap

/-! # The registry of large blocks

The sections of `fetch_from_central_cache` and `sys_free` under `ptrieLock`: the
trie of the blocks allocated directly from the system and the supply of its
nodes. -/

namespace MallocSurvey.Ltalloc

open Library

/-- `ptrieRoot`, `ptrieFreeNodesList` and `ptrieNewAllocatedPage`. -/
structure Registry where
  trie : PTrie
  newAllocatedPage : Word

namespace Registry

def initial (nodes : Word → Option PTrieNode) : Registry where
  trie := { nodes, root := ptrieNullNode, freeNodesList := 0 }
  newAllocatedPage := 0

/-- Taking a node; `some none` when a new page is needed. -/
def takeNode (pageSize : Nat) (registry : Registry) :
    Option (Option (Word × Registry)) :=
  let newNode := registry.trie.freeNodesList
  let page := registry.newAllocatedPage
  if newNode ≠ 0 then do
    let node ← registry.trie.deref newNode
    return some (newNode, { registry with
      trie := { registry.trie with freeNodesList := node.keys false } })
  else if page ≠ 0 then
    -- `((PTrieNode**)ptrieNewAllocatedPage)[-1]` is the last word of this node
    if (page + 32).toNat % pageSize = 0 then do
      let last ← registry.trie.deref page
      return some (page, { registry with newAllocatedPage := last.childNodes true })
    else some (some (page, { registry with newAllocatedPage := page + 32 }))
  else some none

/-- The locked section after `sys_aligned_alloc`; `some none` when a new page is
needed. -/
def register (pageSize : Nat) (key value : Word) (registry : Registry) :
    Option (Option Registry) := do
  match ← registry.takeNode pageSize with
  | none => return none
  | some (newNode, registry) =>
      let trie ← registry.trie.insert key value newNode
      return some { registry with trie }

/-- The nodes of a page. -/
def pageNodes (pageSize page : Nat) : List Word :=
  (run page (pageSize / 32) 32).map (BitVec.ofNat 64)

/-- Zero-filled memory at `page`, its last word linked to the older pages. -/
def addPage (pageSize page : Nat) (registry : Registry) : Registry where
  trie := { registry.trie with
    nodes := fun node =>
      if node ∈ pageNodes pageSize page then some {
        keys := fun _ => 0
        childNodes := fun branch =>
          if branch ∧ node = BitVec.ofNat 64 (page + pageSize - 32) then
            registry.newAllocatedPage else 0 }
      else registry.trie.nodes node }
  newAllocatedPage := BitVec.ofNat 64 (page + 32)

/-- The locked section after a page of nodes has been allocated. -/
def registerWithPage (pageSize : Nat) (key value : Word) (page : Nat)
    (registry : Registry) : Option Registry := do
  let registry := registry.addPage pageSize page
  let trie ← registry.trie.insert key value (BitVec.ofNat 64 page)
  return { registry with trie }

/-- The locked section of `sys_free`. -/
def unregister (key : Word) (registry : Registry) : Option (Registry × Word) := do
  let (trie, size) ← registry.trie.remove key
  return ({ registry with trie }, size)

end Registry

/-! ## The node supply -/

/-- The list of removed nodes, linked through their first words. -/
inductive FreeChain (nodes : Word → Option PTrieNode) : Word → List Word → Prop
  | nil : FreeChain nodes 0 []
  | cons {node : Word} {record : PTrieNode} {rest : List Word} : node ≠ 0 →
      nodes node = some record → FreeChain nodes (record.keys false) rest →
      FreeChain nodes node (node :: rest)

theorem FreeChain.congr {nodes other : Word → Option PTrieNode} {head : Word}
    {free : List Word} (chain : FreeChain nodes head free)
    (same : ∀ node ∈ free, other node = nodes node) : FreeChain other head free := by
  induction chain with
  | nil => exact .nil
  | cons nonzero mapped _ induction =>
      refine .cons nonzero ((same _ List.mem_cons_self).trans mapped) ?_
      exact induction fun node member => same node (List.mem_cons_of_mem _ member)

/-- The link stored in the last node of the page that ends at `address`. -/
def pageLink (nodes : Word → Option PTrieNode) (address : Nat) : Nat :=
  match nodes (BitVec.ofNat 64 (address - 32)) with
  | none => 0
  | some node => (node.childNodes true).toNat

def tailNodes (pageSize tail : Nat) : List Word :=
  (run tail ((regionEnd pageSize tail - tail) / 32) 32).map (BitVec.ofNat 64)

/-- A page of nodes that the system may have returned. -/
structure IsPage (pageSize page : Nat) : Prop where
  aligned : page % pageSize = 0
  nonzero : page ≠ 0
  inRange : page + pageSize < 2 ^ 64

structure RegistryInv (pageSize : Nat) (registry : Registry)
    (contents : Word → Option Word) (pages : List Nat) (tree : Trie)
    (free : List Word) (tails : List Nat) (held : Multiset Word) : Prop where
  represents : Represents registry.trie tree contents
  freeNodes : FreeChain registry.trie.nodes registry.trie.freeNodesList free
  chain : TailChain pageSize (pageLink registry.trie.nodes)
    registry.newAllocatedPage.toNat tails
  position : ∀ tail ∈ tails, ∃ page ∈ pages, ∃ index, 0 < index ∧
    index * 32 < pageSize ∧ tail = page + index * 32
  isPage : ∀ page ∈ pages, IsPage pageSize page
  nodup : pages.Nodup
  mapped : ∀ page ∈ pages, ∀ node ∈ Registry.pageNodes pageSize page,
    ∃ record, registry.trie.nodes node = some record
  ledger : (tree.addresses : Multiset Word) + (free : Multiset Word) +
      (tails.flatMap (tailNodes pageSize) : Multiset Word) + held =
    (pages.flatMap (Registry.pageNodes pageSize) : Multiset Word)

section Pages

variable {pageSize page : Nat}

theorem mem_pageNodes {node : Word} :
    node ∈ Registry.pageNodes pageSize page ↔
      ∃ index < pageSize / 32, node = BitVec.ofNat 64 (page + index * 32) := by
  simp only [Registry.pageNodes, List.mem_map, mem_run]
  constructor
  · intro ⟨_, ⟨index, inRange, rfl⟩, equal⟩
    exact ⟨index, inRange, equal.symm⟩
  · intro ⟨index, inRange, equal⟩
    exact ⟨_, ⟨index, inRange, rfl⟩, equal.symm⟩

/-- `page_size()` is a multiple of the node size and holds two nodes. -/
structure PageSize (pageSize : Nat) : Prop where
  nodes : pageSize % 32 = 0
  two : 64 ≤ pageSize

theorem IsPage.toNat_node (isPage : IsPage pageSize page) {offset : Nat}
    (inside : offset ≤ pageSize) :
    (BitVec.ofNat 64 (page + offset)).toNat = page + offset := by
  have inRange := isPage.inRange
  rw [BitVec.toNat_ofNat, Nat.mod_eq_of_lt (by omega)]

/-- A node's page, and the node as a dereferenceable address. -/
theorem IsPage.node (ok : PageSize pageSize) (isPage : IsPage pageSize page) {node : Word}
    (member : node ∈ Registry.pageNodes pageSize page) :
    node.toNat / pageSize * pageSize = page ∧ node ≠ 0 ∧ isLeaf node = false := by
  obtain ⟨index, inRange, rfl⟩ := mem_pageNodes.mp member
  have aligned := isPage.aligned
  have nonzero := isPage.nonzero
  have nodes := ok.nodes
  have positive : 0 < pageSize := by have := ok.two; omega
  have inside : index * 32 < pageSize := by omega
  have isNat := isPage.toNat_node inside.le
  refine ⟨?_, ?_, ?_⟩
  · rw [isNat]
    obtain ⟨number, rfl⟩ := Nat.dvd_of_mod_eq_zero aligned
    rw [Nat.mul_add_div positive, Nat.div_eq_of_lt inside, Nat.add_zero, Nat.mul_comm]
  · intro isZero
    rw [isZero] at isNat
    have : (0 : Word).toNat = 0 := rfl
    omega
  · have even : page % 2 = 0 := by
      obtain ⟨number, rfl⟩ := Nat.dvd_of_mod_eq_zero aligned
      obtain ⟨count, rfl⟩ := Nat.dvd_of_mod_eq_zero nodes
      rw [Nat.mul_assoc, Nat.mul_mod]
      simp
    rw [isLeaf, BitVec.getLsbD, isNat, Nat.testBit_zero, decide_eq_false_iff_not]
    omega

theorem pageNodes_nodup (ok : PageSize pageSize) (isPage : IsPage pageSize page) :
    (Registry.pageNodes pageSize page).Nodup := by
  rw [Registry.pageNodes]
  apply List.Nodup.map_on _ (run_nodup _ _ (by omega))
  intro left leftMem right rightMem equal
  obtain ⟨leftIndex, leftRange, rfl⟩ := mem_run.mp leftMem
  obtain ⟨rightIndex, rightRange, rfl⟩ := mem_run.mp rightMem
  have nodes := ok.nodes
  rw [← isPage.toNat_node (by omega), equal,
    isPage.toNat_node (by omega)]

theorem pages_nodup (ok : PageSize pageSize) {pages : List Nat}
    (isPage : ∀ page ∈ pages, IsPage pageSize page) (nodup : pages.Nodup) :
    (pages.flatMap (Registry.pageNodes pageSize)).Nodup :=
  flatMap_nodup_of_owner (fun node => node.toNat / pageSize * pageSize) nodup
    (fun page member => pageNodes_nodup ok (isPage page member))
    fun page member _ isNode => ((isPage page member).node ok isNode).1

end Pages
/-! ## The operations keep the registry -/

namespace RegistryInv

variable {pageSize : Nat} {registry : Registry} {contents : Word → Option Word}
  {pages : List Nat} {tree : Trie} {free : List Word} {tails : List Nat}
  {held : Multiset Word}

theorem nodes_nodup (inv : RegistryInv pageSize registry contents pages tree free tails held)
    (ok : PageSize pageSize) :
    ((tree.addresses : Multiset Word) + (free : Multiset Word) +
      (tails.flatMap (tailNodes pageSize) : Multiset Word) + held).Nodup := by
  rw [inv.ledger, Multiset.coe_nodup]
  exact pages_nodup ok inv.isPage inv.nodup

/-- Every node of the supply is in a page, mapped and not in use twice. -/
theorem deref (inv : RegistryInv pageSize registry contents pages tree free tails held)
    (ok : PageSize pageSize) {node : Word}
    (member : node ∈ (tree.addresses : Multiset Word) + (free : Multiset Word) +
      (tails.flatMap (tailNodes pageSize) : Multiset Word) + held) :
    ∃ record, registry.trie.deref node = some record ∧
      registry.trie.nodes node = some record := by
  rw [inv.ledger, Multiset.mem_coe, List.mem_flatMap] at member
  obtain ⟨page, isPage, isNode⟩ := member
  obtain ⟨record, mapped⟩ := inv.mapped page isPage node isNode
  have facts := (inv.isPage page isPage).node ok isNode
  exact ⟨record, PTrie.deref_eq_some_iff.mpr ⟨facts.2.2, facts.2.1, mapped⟩, mapped⟩

/-- The first node of the first uncarved tail. -/
theorem tail_head (inv : RegistryInv pageSize registry contents pages tree free tails held)
    (ok : PageSize pageSize) {tail : Nat} {rest : List Nat} (isTails : tails = tail :: rest) :
    ∃ page index, page ∈ pages ∧ 0 < index ∧ index * 32 < pageSize ∧
      tail = page + index * 32 ∧ regionEnd pageSize tail = page + pageSize ∧
      tailNodes pageSize tail = BitVec.ofNat 64 tail ::
        (run (tail + 32) ((page + pageSize - (tail + 32)) / 32) 32).map
          (BitVec.ofNat 64) := by
  obtain ⟨page, isPage, index, positive, inside, position⟩ :=
    inv.position tail (isTails ▸ List.mem_cons_self)
  have nodes := ok.nodes
  have isEnd : regionEnd pageSize tail = page + pageSize := by
    rw [position, regionEnd_eq (inv.isPage page isPage).aligned inside]
  refine ⟨page, index, isPage, positive, inside, position, isEnd, ?_⟩
  have count : (page + pageSize - tail) / 32 =
      (page + pageSize - (tail + 32)) / 32 + 1 := by omega
  rw [tailNodes, isEnd, count, run_succ, List.map_cons]

/-- Handing out the first node of the newest page. -/
theorem takePage_spec
    (inv : RegistryInv pageSize registry contents pages tree free tails 0)
    (ok : PageSize pageSize) (notNull : registry.newAllocatedPage ≠ 0) :
    ∃ after newTails,
      (if (registry.newAllocatedPage + 32).toNat % pageSize = 0 then do
          let last ← registry.trie.deref registry.newAllocatedPage
          return some (registry.newAllocatedPage,
            { registry with newAllocatedPage := last.childNodes true })
        else some (some (registry.newAllocatedPage,
          { registry with newAllocatedPage := registry.newAllocatedPage + 32 }))) =
        some (some (registry.newAllocatedPage, after)) ∧
      RegistryInv pageSize after contents pages tree free newTails
        {registry.newAllocatedPage} := by
  have chain := inv.chain
  have ledger := inv.ledger
  have toNatNonzero : registry.newAllocatedPage.toNat ≠ 0 := fun zero =>
    notNull (BitVec.eq_of_toNat_eq zero)
  cases tailsEq : tails with
  | nil =>
      rw [tailsEq] at chain
      exact absurd (chain.head_eq_zero_iff.mpr rfl) toNatNonzero
  | cons tail rest =>
      have isHead := tailsEq ▸ chain
      obtain ⟨headEq, tailNonzero, restChain⟩ := TailChain.cons_iff.mp isHead
      obtain ⟨page, index, isPageMem, positive, inside, position, isEnd, split⟩ :=
        inv.tail_head ok tailsEq
      have isPage := inv.isPage page isPageMem
      have nodes := ok.nodes
      have inRange := isPage.inRange
      have nodeEq : BitVec.ofNat 64 tail = registry.newAllocatedPage := by
        rw [← headEq]
        simp
      have nextNat : (registry.newAllocatedPage + 32).toNat = tail + 32 := by
        rw [BitVec.toNat_add, headEq]
        change (tail + 32) % 2 ^ 64 = tail + 32
        omega
      have restPosition : ∀ other ∈ rest, ∃ page ∈ pages, ∃ index, 0 < index ∧
          index * 32 < pageSize ∧ other = page + index * 32 := fun other member =>
        inv.position other (tailsEq ▸ List.mem_cons_of_mem _ member)
      rw [tailsEq, List.flatMap_cons, split, nodeEq] at ledger
      rw [nextNat]
      rw [isEnd] at restChain
      by_cases isLast : tail + 32 = page + pageSize
      · have atEnd : (tail + 32) % pageSize = 0 := by
          rw [isLast, Nat.add_mod_right, isPage.aligned]
        have member : registry.newAllocatedPage ∈ (tree.addresses : Multiset Word) +
            (free : Multiset Word) +
            (tails.flatMap (tailNodes pageSize) : Multiset Word) + 0 := by
          rw [tailsEq, List.flatMap_cons, split, nodeEq]
          simp
        obtain ⟨record, derefEq, nodesEq⟩ := inv.deref ok member
        have link : pageLink registry.trie.nodes (page + pageSize) =
            (record.childNodes true).toNat := by
          rw [pageLink, ← isLast, Nat.add_sub_cancel, nodeEq, nodesEq]
        rw [link] at restChain
        rw [if_pos atEnd, derefEq]
        refine ⟨_, rest, rfl, inv.represents, inv.freeNodes, restChain, restPosition,
          inv.isPage, inv.nodup, inv.mapped, ?_⟩
        rw [← ledger]
        have none : (page + pageSize - (tail + 32)) / 32 = 0 := by omega
        rw [none]
        simp only [run_zero, List.map_nil, List.cons_append, List.nil_append,
          ← Multiset.cons_coe, ← Multiset.singleton_add]
        abel
      · have indexNext : (index + 1) * 32 < pageSize := by omega
        have inPage : (tail + 32) % pageSize ≠ 0 := by
          obtain ⟨number, rfl⟩ := Nat.dvd_of_mod_eq_zero isPage.aligned
          rw [position, Nat.add_assoc, Nat.mul_add_mod,
            Nat.mod_eq_of_lt (by omega)]
          omega
        have sameEnd : regionEnd pageSize (tail + 32) = regionEnd pageSize tail := by
          rw [isEnd, position, Nat.add_assoc, regionEnd_eq isPage.aligned (by omega)]
        rw [if_neg inPage]
        refine ⟨_, (tail + 32) :: rest, rfl, inv.represents, inv.freeNodes, ?_, ?_,
          inv.isPage, inv.nodup, inv.mapped, ?_⟩
        · rw [nextNat]
          rw [headEq] at isHead
          exact isHead.advance sameEnd (by omega)
        · intro other member
          rcases List.mem_cons.mp member with isFirst | member
          · exact ⟨page, isPageMem, index + 1, by omega, indexNext, by omega⟩
          · exact restPosition other member
        · rw [← ledger, List.flatMap_cons, tailNodes, sameEnd, isEnd]
          simp only [List.cons_append, ← Multiset.cons_coe, ← Multiset.singleton_add,
            ← Multiset.coe_add]
          abel

theorem takeNode_spec
    (inv : RegistryInv pageSize registry contents pages tree free tails 0)
    (ok : PageSize pageSize) :
    registry.takeNode pageSize = some none ∨
      ∃ node after newFree newTails,
        registry.takeNode pageSize = some (some (node, after)) ∧
        RegistryInv pageSize after contents pages tree newFree newTails {node} := by
  unfold Registry.takeNode
  by_cases noFree : registry.trie.freeNodesList = 0
  · rw [if_neg (not_not.mpr noFree)]
    by_cases noPage : registry.newAllocatedPage = 0
    · rw [if_neg (not_not.mpr noPage)]
      exact .inl rfl
    · obtain ⟨after, newTails, result, newInv⟩ := inv.takePage_spec ok noPage
      rw [if_pos noPage]
      exact .inr ⟨_, after, free, newTails, result, newInv⟩
  · rw [if_pos noFree]
    have freeNodes := inv.freeNodes
    generalize headEq : registry.trie.freeNodesList = head at freeNodes
    cases freeNodes with
    | nil => exact absurd headEq noFree
    | @cons _ record rest nonzero mapped restChain =>
        have member : head ∈ (tree.addresses : Multiset Word) +
            ((head :: rest : List Word) : Multiset Word) +
            (tails.flatMap (tailNodes pageSize) : Multiset Word) + 0 := by
          simp
        obtain ⟨found, derefEq, nodesEq⟩ := inv.deref ok member
        cases mapped.symm.trans nodesEq
        refine .inr ⟨head, { registry with
            trie := { registry.trie with freeNodesList := record.keys false } }, rest, tails,
          by rw [derefEq]; rfl, ?_⟩
        refine ⟨inv.represents.congr rfl fun _ _ => rfl, restChain, inv.chain,
          inv.position, inv.isPage, inv.nodup, inv.mapped, ?_⟩
        rw [← inv.ledger, ← Multiset.cons_coe, ← Multiset.singleton_add]
        abel

theorem node_mem_pages
    (inv : RegistryInv pageSize registry contents pages tree free tails held)
    {node : Word} (member : node ∈ (tree.addresses : Multiset Word) +
      (free : Multiset Word) + (tails.flatMap (tailNodes pageSize) : Multiset Word) +
      held) : ∃ page ∈ pages, node ∈ Registry.pageNodes pageSize page := by
  rw [inv.ledger, Multiset.mem_coe, List.mem_flatMap] at member
  exact member

/-- The node that holds the link of a page is in the page's tail. -/
theorem link_mem_tailNodes
    (inv : RegistryInv pageSize registry contents pages tree free tails held)
    (ok : PageSize pageSize) {tail : Nat} (member : tail ∈ tails) :
    BitVec.ofNat 64 (regionEnd pageSize tail - 32) ∈ tailNodes pageSize tail := by
  obtain ⟨page, isPage, index, positive, inside, position⟩ := inv.position tail member
  have nodes := ok.nodes
  have aligned := (inv.isPage page isPage).aligned
  have isEnd : regionEnd pageSize tail = page + pageSize := by
    rw [position, regionEnd_eq aligned inside]
  rw [tailNodes, isEnd]
  refine List.mem_map.mpr ⟨page + pageSize - 32, mem_run.mpr ?_, rfl⟩
  exact ⟨(page + pageSize - tail) / 32 - 1, by omega, by omega⟩

/-- Writing nodes that are neither free nor uncarved keeps the supply. -/
theorem supply_congr
    (inv : RegistryInv pageSize registry contents pages tree free tails held)
    (ok : PageSize pageSize) {nodes : Word → Option PTrieNode}
    (same : ∀ node, node ∈ (free : Multiset Word) +
      (tails.flatMap (tailNodes pageSize) : Multiset Word) →
      nodes node = registry.trie.nodes node) :
    FreeChain nodes registry.trie.freeNodesList free ∧
      TailChain pageSize (pageLink nodes) registry.newAllocatedPage.toNat tails := by
  refine ⟨inv.freeNodes.congr fun node member => same node ?_,
    inv.chain.congr fun tail member => ?_⟩
  · exact Multiset.mem_add.mpr (.inl member)
  · rw [pageLink, pageLink, same]
    exact Multiset.mem_add.mpr (.inr (List.mem_flatMap.mpr
      ⟨tail, member, inv.link_mem_tailNodes ok member⟩))

theorem insert_spec {key value node : Word}
    (inv : RegistryInv pageSize registry contents pages tree free tails {node})
    (ok : PageSize pageSize) (aligned : lowByte key = 0) (isValue : Trie.IsValue value)
    (absent : contents key = none) :
    ∃ trie newTree, registry.trie.insert key value node = some trie ∧
      RegistryInv pageSize { registry with trie }
        (Function.update contents key (some value)) pages newTree free tails 0 := by
  have nodup := inv.nodes_nodup ok
  have memHeld : node ∈ (tree.addresses : Multiset Word) + (free : Multiset Word) +
      (tails.flatMap (tailNodes pageSize) : Multiset Word) + {node} :=
    Multiset.mem_add.mpr (.inr (Multiset.mem_singleton_self node))
  rw [Multiset.nodup_add, Multiset.disjoint_singleton] at nodup
  have notInTree : node ∉ tree.addresses := fun member => nodup.2.2 (by simp [member])
  have fresh : registry.trie.Fresh node := by
    obtain ⟨record, derefEq, _⟩ := inv.deref ok memHeld
    exact ⟨⟨record, derefEq⟩, fun inTree =>
      notInTree (inv.represents.mem_addresses_of_inTree inTree)⟩
  obtain ⟨trie, newTree, result, represents, perm, same⟩ :=
    inv.represents.insert_eq aligned isValue absent fresh
  have supplySame : ∀ other, other ∈ (free : Multiset Word) +
      (tails.flatMap (tailNodes pageSize) : Multiset Word) →
      trie.nodes other = registry.trie.nodes other := by
    intro other member
    apply same
    rw [add_assoc, Multiset.nodup_add] at nodup
    rw [List.mem_cons, not_or]
    refine ⟨fun isNode => nodup.2.2 (Multiset.mem_add.mpr (.inr (isNode ▸ member))),
      fun inTree => ?_⟩
    exact Multiset.disjoint_left.mp nodup.1.2.2 inTree member
  have supply := inv.supply_congr ok supplySame
  rw [← PTrie.insert_freeNodesList result] at supply
  refine ⟨trie, newTree, result, represents, supply.1, supply.2, inv.position,
    inv.isPage, inv.nodup, ?_, ?_⟩
  · intro page isPage other isNode
    by_cases inTree : other ∈ node :: tree.addresses
    · exact represents.rep.mapped (perm.mem_iff.mpr inTree)
    · rw [same other inTree]
      exact inv.mapped page isPage other isNode
  · rw [← inv.ledger, Multiset.coe_eq_coe.mpr perm, ← Multiset.cons_coe,
      ← Multiset.singleton_add]
    abel

theorem register_spec {key value : Word}
    (inv : RegistryInv pageSize registry contents pages tree free tails 0)
    (ok : PageSize pageSize) (aligned : lowByte key = 0) (isValue : Trie.IsValue value)
    (absent : contents key = none) :
    registry.register pageSize key value = some none ∨
      ∃ after newTree newFree newTails,
        registry.register pageSize key value = some (some after) ∧
        RegistryInv pageSize after (Function.update contents key (some value)) pages
          newTree newFree newTails 0 := by
  unfold Registry.register
  rcases inv.takeNode_spec ok with needPage | ⟨node, taken, newFree, newTails, result, takenInv⟩
  · rw [needPage]
    exact .inl rfl
  · obtain ⟨trie, newTree, inserted, newInv⟩ :=
      takenInv.insert_spec ok aligned isValue absent
    rw [result]
    refine .inr ⟨{ taken with trie }, newTree, newFree, newTails, ?_, newInv⟩
    simp only [Option.bind_eq_bind, Option.bind_some, inserted, Option.pure_def]

theorem addPage_spec {page : Nat}
    (inv : RegistryInv pageSize registry contents pages tree free tails 0)
    (ok : PageSize pageSize) (isPage : IsPage pageSize page) (fresh : page ∉ pages) :
    ∃ newTails, RegistryInv pageSize (registry.addPage pageSize page) contents
      (page :: pages) tree free newTails {BitVec.ofNat 64 page} := by
  have nodes := ok.nodes
  have two := ok.two
  have outside : ∀ {node : Word}, node ∈ (tree.addresses : Multiset Word) +
      (free : Multiset Word) + (tails.flatMap (tailNodes pageSize) : Multiset Word) + 0 →
      (registry.addPage pageSize page).trie.nodes node = registry.trie.nodes node := by
    intro node member
    obtain ⟨other, isOther, isNode⟩ := inv.node_mem_pages member
    refine if_neg fun isNew => fresh ?_
    rw [← (isPage.node ok isNew).1, ((inv.isPage other isOther).node ok isNode).1]
    exact isOther
  have supply := inv.supply_congr ok
    (fun node member => outside (by
      rw [add_zero, add_assoc]
      exact Multiset.mem_add.mpr (.inr member)))
  have isEnd : regionEnd pageSize (page + 32) = page + pageSize :=
    regionEnd_eq isPage.aligned (by omega)
  have lastNode : BitVec.ofNat 64 (page + pageSize - 32) ∈
      Registry.pageNodes pageSize page :=
    mem_pageNodes.mpr ⟨pageSize / 32 - 1, by omega, by congr 1; omega⟩
  have link : pageLink (registry.addPage pageSize page).trie.nodes (page + pageSize) =
      registry.newAllocatedPage.toNat := by
    simp only [pageLink, Registry.addPage, if_pos lastNode, and_self, if_true]
  refine ⟨(page + 32) :: tails, inv.represents.congr rfl ?_, supply.1, ?_, ?_, ?_, ?_,
    ?_, ?_⟩
  · intro node member
    exact outside (by simp [member])
  · change TailChain pageSize _ (BitVec.ofNat 64 (page + 32)).toNat _
    rw [isPage.toNat_node (by omega)]
    refine .cons (by omega) ?_
    rw [isEnd, link]
    exact supply.2
  · intro tail member
    rcases List.mem_cons.mp member with isNew | member
    · exact ⟨page, List.mem_cons_self, 1, by omega, by omega, isNew⟩
    · obtain ⟨other, isOther, position⟩ := inv.position tail member
      exact ⟨other, List.mem_cons_of_mem _ isOther, position⟩
  · intro other member
    rcases List.mem_cons.mp member with isNew | member
    · exact isNew ▸ isPage
    · exact inv.isPage other member
  · exact List.nodup_cons.mpr ⟨fresh, inv.nodup⟩
  · intro other member node isNode
    by_cases isNew : node ∈ Registry.pageNodes pageSize page
    · exact ⟨_, if_pos isNew⟩
    · rcases List.mem_cons.mp member with isPageEq | member
      · exact absurd (isPageEq ▸ isNode) isNew
      · obtain ⟨record, mapped⟩ := inv.mapped other member node isNode
        exact ⟨record, (if_neg isNew).trans mapped⟩
  · have count : pageSize / 32 = (page + pageSize - (page + 32)) / 32 + 1 := by omega
    have split : Registry.pageNodes pageSize page =
        BitVec.ofNat 64 page :: tailNodes pageSize (page + 32) := by
      rw [Registry.pageNodes, count, run_succ, List.map_cons, tailNodes, isEnd]
    rw [List.flatMap_cons, List.flatMap_cons, split, ← Multiset.coe_add,
      ← Multiset.coe_add, ← inv.ledger, ← Multiset.cons_coe, ← Multiset.singleton_add]
    abel

theorem registerWithPage_spec {key value : Word} {page : Nat}
    (inv : RegistryInv pageSize registry contents pages tree free tails 0)
    (ok : PageSize pageSize) (isPage : IsPage pageSize page) (fresh : page ∉ pages)
    (aligned : lowByte key = 0) (isValue : Trie.IsValue value)
    (absent : contents key = none) :
    ∃ after newTree newTails,
      registry.registerWithPage pageSize key value page = some after ∧
      RegistryInv pageSize after (Function.update contents key (some value))
        (page :: pages) newTree free newTails 0 := by
  obtain ⟨newTails, added⟩ := inv.addPage_spec ok isPage fresh
  obtain ⟨trie, newTree, inserted, newInv⟩ := added.insert_spec ok aligned isValue absent
  refine ⟨{ registry.addPage pageSize page with trie }, newTree, newTails, ?_, newInv⟩
  simp only [Registry.registerWithPage, inserted, Option.bind_eq_bind, Option.bind_some,
    Option.pure_def]

theorem unregister_spec {key value : Word}
    (inv : RegistryInv pageSize registry contents pages tree free tails 0)
    (ok : PageSize pageSize) (present : contents key = some value) :
    ∃ after newTree newFree, registry.unregister key = some (after, value) ∧
      RegistryInv pageSize after (Function.update contents key none) pages newTree
        newFree tails 0 := by
  obtain ⟨trie, newTree, result, represents, perm, same, record, freedRecord, linked⟩ :=
    inv.represents.remove_eq present
  have nodup := inv.nodes_nodup ok
  have supplySame : ∀ other, other ∈ (free : Multiset Word) +
      (tails.flatMap (tailNodes pageSize) : Multiset Word) →
      trie.nodes other = registry.trie.nodes other := by
    intro other member
    apply same
    intro inTree
    rw [add_zero, add_assoc, Multiset.nodup_add] at nodup
    exact Multiset.disjoint_left.mp nodup.2.2 inTree member
  have supply := inv.supply_congr ok supplySame
  have freedMem : trie.freeNodesList ∈ tree.addresses := perm.mem_iff.mpr List.mem_cons_self
  have freedNonzero : trie.freeNodesList ≠ 0 := by
    obtain ⟨record, derefEq, _⟩ := @RegistryInv.deref _ _ _ _ _ _ _ _ inv ok trie.freeNodesList
      (by simp [freedMem])
    exact (PTrie.deref_eq_some_iff.mp derefEq).2.1
  refine ⟨{ registry with trie }, newTree, trie.freeNodesList :: free, ?_, represents,
    ?_, supply.2, inv.position, inv.isPage, inv.nodup, ?_, ?_⟩
  · simp only [Registry.unregister, result, Option.bind_eq_bind, Option.bind_some,
      Option.pure_def]
  · refine .cons freedNonzero freedRecord ?_
    rw [linked]
    exact supply.1
  · intro page isPage other isNode
    by_cases inTree : other ∈ tree.addresses
    · rcases List.mem_cons.mp (perm.mem_iff.mp inTree) with isFreed | inAfter
      · exact ⟨record, isFreed ▸ freedRecord⟩
      · exact represents.rep.mapped inAfter
    · rw [same other inTree]
      exact inv.mapped page isPage other isNode
  · rw [← inv.ledger, Multiset.coe_eq_coe.mpr perm, ← Multiset.cons_coe,
      ← Multiset.cons_coe, ← Multiset.singleton_add, ← Multiset.singleton_add]
    abel

end RegistryInv

theorem registryInv_initial {pageSize : Nat} (nodes : Word → Option PTrieNode) :
    RegistryInv pageSize (.initial nodes) (fun _ => none) [] .null [] [] 0 where
  represents := ⟨rfl, trivial, List.nodup_nil, .null, rfl, fun _ _ => rfl,
    fun _ _ present => nomatch present⟩
  freeNodes := .nil
  chain := .nil
  position := fun _ member => nomatch member
  isPage := fun _ member => nomatch member
  nodup := List.nodup_nil
  mapped := fun _ member => nomatch member
  ledger := rfl

end MallocSurvey.Ltalloc
