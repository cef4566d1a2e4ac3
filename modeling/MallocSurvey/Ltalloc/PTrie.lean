import MallocSurvey.Library.Bits

/-! # The patricia trie of system allocations

`ptrie_lookup`, `ptrie_insert` and `ptrie_remove` of `ltalloc.cc` on a 64-bit
build. Values and null children are tagged words in the place of a child node
pointer; a word whose lowest bit is clear is the address of a node. -/

namespace MallocSurvey.Ltalloc

open Library

/-- `uintptr_t`. -/
abbrev Word := BitVec 64

/-- `PTrieNode`; index `false` is `[0]` and `true` is `[1]`. -/
structure PTrieNode where
  keys : Bool → Word
  childNodes : Bool → Word

/-- `PTRIE_NULL_NODE`. -/
def ptrieNullNode : Word := 1

/-- `(uintptr_t)node & 1`. -/
def isLeaf (node : Word) : Bool := node.getLsbD 0

/-- The trie's globals together with the memory its nodes live in. -/
structure PTrie where
  nodes : Word → Option PTrieNode
  root : Word
  freeNodesList : Word

/-- What a `PTrieNode **` cursor designates; the `uintptr_t *` key cursors
always designate the key next to the child. -/
inductive NodeSlot
  | root
  | child (owner : Word) (branch : Bool)

namespace PTrieNode

/-- `keys[0] & 0xFF`. -/
def prefixEnd (node : PTrieNode) : Nat := (lowByte (node.keys false)).toNat

/-- `(key >> (keys[0] & 0xFF)) & 1`. -/
def branch (node : PTrieNode) (key : Word) : Bool :=
  (key >>> node.prefixEnd).getLsbD 0

theorem branch_eq (node : PTrieNode) (key : Word) :
    node.branch key = key.getLsbD node.prefixEnd := by
  simp [branch]

end PTrieNode

namespace PTrie

/-- Dereferencing a tagged, null or unmapped pointer is a fault. -/
def deref (trie : PTrie) (node : Word) : Option PTrieNode :=
  if isLeaf node || node == 0 then none else trie.nodes node

def setNode (trie : PTrie) (address : Word) (node : PTrieNode) : PTrie :=
  { trie with nodes := Function.update trie.nodes address (some node) }

/-- `*node`. -/
def read (trie : PTrie) : NodeSlot → Option Word
  | .root => some trie.root
  | .child owner branch => do
      let node ← trie.deref owner
      return node.childNodes branch

/-- `*node = value`. -/
def write (trie : PTrie) (slot : NodeSlot) (value : Word) : Option PTrie :=
  match slot with
  | .root => some { trie with root := value }
  | .child owner branch => do
      let node ← trie.deref owner
      return trie.setNode owner
        { node with childNodes := Function.update node.childNodes branch value }

/-- Iterations granted to the descending loops; one more than any valid trie
is deep. -/
def descentBound : Nat := 66

def lookupLoop (trie : PTrie) (key : Word) :
    Nat → Word → Option (Word × Bool) → Option (Word × Option (Word × Bool))
  | 0, _, _ => none
  | fuel + 1, node, lastKey =>
      if isLeaf node then some (node, lastKey)
      else do
        let current ← trie.deref node
        let branch := current.branch key
        lookupLoop trie key fuel (current.childNodes branch) (some (node, branch))

/-- `ptrie_lookup`. -/
def lookup (trie : PTrie) (key : Word) : Option Word := do
  let (node, lastKey) ← trie.lookupLoop key descentBound trie.root none
  let (owner, branch) ← lastKey
  let last ← trie.deref owner
  guard (clearLowByte (last.keys branch) = key)
  return node &&& ~~~1#64

/-- The end of `ptrie_insert`: a new node above `n`, split at the highest bit
of `x`. -/
def graft (trie : PTrie) (slot : NodeSlot) (n pkey x key value newNode : Word) :
    Option PTrie := do
  let _ ← trie.deref newNode
  let index := bsr x
  let b := (key >>> index).getLsbD 0
  let written := trie.setNode newNode {
    keys := fun side =>
      let stored := if side = b then key else pkey
      if side then stored else stored ||| BitVec.ofNat 64 index
    childNodes := fun side => if side = b then value ||| 1 else n }
  written.write slot newNode

def insertLoop (key value newNode : Word) :
    Nat → PTrie → NodeSlot → Option (Word × Bool) → Option PTrie
  | 0, _, _, _ => none
  | fuel + 1, trie, slot, prevKey => do
      let n ← trie.read slot
      if isLeaf n then
        if n = ptrieNullNode then do
          let linked ← trie.write slot newNode
          let fresh ← linked.deref newNode
          return linked.setNode newNode {
            keys := Function.update fresh.keys false key
            childNodes := fun side => if side then ptrieNullNode else value ||| 1 }
        else do
          let (owner, branch) ← prevKey
          let parent ← trie.deref owner
          let pkey := clearLowByte (parent.keys branch)
          let x := key ^^^ pkey
          guard (x ≠ 0)
          trie.graft slot n pkey x key value newNode
      else do
        let current ← trie.deref n
        let x := key ^^^ current.keys false
        if x &&& (~~~1#64) <<< current.prefixEnd = 0 then
          let branch := current.branch key
          insertLoop key value newNode fuel trie (.child n branch) (some (n, branch))
        else
          trie.graft slot n (clearLowByte (current.keys false)) x key value newNode

/-- `ptrie_insert`. -/
def insert (trie : PTrie) (key value newNode : Word) : Option PTrie := do
  guard (value.getLsbD 0 = false ∧ lowByte key = 0)
  insertLoop key value newNode descentBound trie .root none

/-- The `if` of `ptrie_remove` that moves the sibling's key up. -/
def liftKey (trie : PTrie) (node : PTrieNode) (branch : Bool)
    (pkey : Option (Word × Bool)) : Option PTrie :=
  let other := node.childNodes (!branch)
  if isLeaf other && other != ptrieNullNode then do
    let (owner, side) ← pkey
    let parent ← trie.deref owner
    return trie.setNode owner { parent with
      keys := Function.update parent.keys side
        (clearLowByte (node.keys (!branch)) ||| lowByte (parent.keys side)) }
  else some trie

def removeLoop (key : Word) :
    Nat → PTrie → NodeSlot → Option (Word × Bool) → Option (PTrie × Word)
  | 0, _, _, _ => none
  | fuel + 1, trie, slot, pkey => do
      let n ← trie.read slot
      let node ← trie.deref n
      let branch := node.branch key
      let cn := node.childNodes branch
      if isLeaf cn then do
        guard (clearLowByte (node.keys branch) = key)
        guard (cn ≠ ptrieNullNode)
        let lifted ← trie.liftKey node branch pkey
        let unlinked ← lifted.write slot (node.childNodes (!branch))
        let removed ← unlinked.deref n
        return ({ unlinked.setNode n { removed with
            keys := Function.update removed.keys false unlinked.freeNodesList } with
          freeNodesList := n }, cn &&& ~~~1#64)
      else
        removeLoop key fuel trie (.child n branch) (some (n, branch))

/-- `ptrie_remove`: the trie without `key`, and the value it had. -/
def remove (trie : PTrie) (key : Word) : Option (PTrie × Word) := do
  guard (trie.root ≠ ptrieNullNode)
  removeLoop key descentBound trie .root none

end PTrie

/-! ## Tagged words -/

theorem isLeaf_or_one (value : Word) : isLeaf (value ||| 1) = true := by
  simp [isLeaf]

@[simp] theorem isLeaf_nullNode : isLeaf ptrieNullNode = true := rfl

theorem or_one_and_not_one {value : Word} (even : value.getLsbD 0 = false) :
    (value ||| 1) &&& ~~~1#64 = value := by
  apply BitVec.eq_of_getLsbD_eq
  intro index inRange
  change ((value ||| 1#64) &&& ~~~1#64).getLsbD index = _
  rw [BitVec.getLsbD_and, BitVec.getLsbD_or, BitVec.getLsbD_not, BitVec.getLsbD_one]
  by_cases zero : index = 0
  · subst zero
    rw [even]
    rfl
  · simp [zero, inRange]

theorem or_one_ne_nullNode {value : Word} (even : value.getLsbD 0 = false)
    (nonzero : value ≠ 0) : value ||| 1 ≠ ptrieNullNode := by
  intro equal
  apply nonzero
  rw [← or_one_and_not_one even, equal]
  rfl

end MallocSurvey.Ltalloc
