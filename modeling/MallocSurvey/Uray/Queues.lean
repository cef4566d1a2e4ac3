import MallocSurvey.Library.Ledger
import MallocSurvey.Library.Queue
import MallocSurvey.Library.Transition
import Mathlib.Logic.Function.Basic

/-! # `ObjectPool<T>` of `uray/allocator.hpp`

One thread uses the pool, so the flags are modelled by their values. The counters
never exceed the number of nodes, which are in memory, and do not wrap. -/

namespace MallocSurvey.Uray

open Library

/-- A node is named by the list that made it and its index in the list's `storage`. Its
object goes by the same name. -/
structure ObjectPoolNode where
  list : Nat
  index : Nat
deriving DecidableEq

structure ObjectPoolList where
  nextList : Nat
  first : ObjectPoolNode
  consumerLock : Bool
  last : ObjectPoolNode
  producerLock : Bool
  available : Nat
  count : Nat

structure ObjectPool where
  lists : Nat → ObjectPoolList
  /-- the `next` pointers of the nodes -/
  next : ObjectPoolNode → Option ObjectPoolNode
  available : Nat
  listCount : Nat

/-! ## Constructors -/

/-- The links between the first `count + 1` nodes of a list. -/
def linkStorage (list : Nat) (next : ObjectPoolNode → Option ObjectPoolNode) :
    Nat → ObjectPoolNode → Option ObjectPoolNode
  | 0 => next
  | count + 1 =>
      Function.update (linkStorage list next count) ⟨list, count⟩ (some ⟨list, count + 1⟩)

def ObjectPoolList.new (list count : Nat) : ObjectPoolList where
  nextList := 0
  first := ⟨list, 0⟩
  consumerLock := false
  last := ⟨list, count⟩
  producerLock := false
  available := count
  count := count

/-- The loop that makes the lists, up to some list. -/
def ObjectPool.makeLists (pool : ObjectPool) (share : Nat) : Nat → ObjectPool
  | 0 => pool
  | list + 1 =>
      let made := pool.makeLists share list
      { made with
        lists := Function.update made.lists list (.new list share)
        next := linkStorage list made.next share }

def setNextList (lists : Nat → ObjectPoolList) (list target : Nat) : Nat → ObjectPoolList :=
  Function.update lists list { lists list with nextList := target }

/-- The loop that joins the lists, up to some list. -/
def joinLists (lists : Nat → ObjectPoolList) : Nat → Nat → ObjectPoolList
  | 0 => lists
  | list + 1 => setNextList (joinLists lists list) list (list + 1)

/-- `processors` is the answer of `getSystemLogicalProcessor`. -/
def ObjectPool.new (processors count parallelCount : Nat) : ObjectPool :=
  let listCount := if parallelCount = 0 then processors else parallelCount
  let empty : ObjectPool := ⟨fun list => .new list 0, fun _ => none, count, listCount⟩
  let made := empty.makeLists (count / listCount) listCount
  let joined := joinLists made.lists (listCount - 1)
  { made with lists := setNextList joined (listCount - 1) 0 }

/-! ## Borrowing and returning -/

/-- `consumerLock.exchange(true)` -/
def ObjectPool.lockConsumer (pool : ObjectPool) (list : Nat) : Bool × ObjectPool :=
  ((pool.lists list).consumerLock,
    { pool with
      lists := Function.update pool.lists list
        { pool.lists list with consumerLock := true } })

/-- `producerLock.exchange(true)` -/
def ObjectPool.lockProducer (pool : ObjectPool) (list : Nat) : Bool × ObjectPool :=
  ((pool.lists list).producerLock,
    { pool with
      lists := Function.update pool.lists list
        { pool.lists list with producerLock := true } })

def ObjectPool.unlockConsumer (pool : ObjectPool) (list : Nat) : ObjectPool :=
  { pool with
    lists := Function.update pool.lists list
      { pool.lists list with consumerLock := false } }

/-- The loop of `borrowObj` from some list on: the list it ends with, or none for
`return NULL`. The outer `none` says that it runs longer than the fuel. -/
def findConsumer : Nat → ObjectPool → Nat → Option (Option Nat × ObjectPool)
  | 0, _, _ => none
  | fuel + 1, pool, list =>
      let (busy, pool) :=
        if (pool.lists list).available = 0 then (true, pool) else pool.lockConsumer list
      if busy then
        if pool.available = 0 then some (none, pool)
        else findConsumer fuel pool (pool.lists list).nextList
      else some (some list, pool)

/-- The part of `borrowObj` behind the loop. -/
def ObjectPool.takeFirst (pool : ObjectPool) (list : Nat) : Option ObjectPoolNode × ObjectPool :=
  let entry := pool.lists list
  match pool.next entry.first with
  | some second =>
      let taken : ObjectPool :=
        { pool with
          lists := Function.update pool.lists list
            { entry with first := second, available := entry.available - 1 }
          available := pool.available - 1 }
      let unlocked := taken.unlockConsumer list
      (some entry.first,
        { unlocked with next := Function.update unlocked.next entry.first none })
  | none => (none, pool.unlockConsumer list)

def borrowObj (fuel : Nat) (pool : ObjectPool) : Option (Option ObjectPoolNode × ObjectPool) := do
  match ← findConsumer fuel pool 0 with
  | (none, pool) => return (none, pool)
  | (some list, pool) => return pool.takeFirst list

/-- The loop of `returnObj` from some list on. -/
def findProducer : Nat → ObjectPool → Nat → Option (Nat × ObjectPool)
  | 0, _, _ => none
  | fuel + 1, pool, list =>
      let (busy, pool) := pool.lockProducer list
      if busy then findProducer fuel pool (pool.lists list).nextList else some (list, pool)

/-- The part of `returnObj` behind the loop. -/
def ObjectPool.putLast (pool : ObjectPool) (list : Nat) (node : ObjectPoolNode) : ObjectPool :=
  let entry := pool.lists list
  { pool with
    next := Function.update pool.next entry.last (some node)
    lists := Function.update pool.lists list
      { entry with last := node, producerLock := false, available := entry.available + 1 }
    available := pool.available + 1 }

def returnObj (fuel : Nat) (pool : ObjectPool) (node : ObjectPoolNode) : Option ObjectPool := do
  let (list, pool) ← findProducer fuel pool 0
  return pool.putLast list node

/-! ## A program that uses the pool -/

structure State where
  pool : ObjectPool
  /-- the objects borrowed and not returned -/
  borrowed : List ObjectPoolNode

/-- The calls, with a bound on the turns of their loops. -/
inductive Event
  | borrowObj (fuel : Nat)
  | returnObj (fuel : Nat) (object : ObjectPoolNode)

def step (state : State) : Event → Option State
  | .borrowObj fuel => do
      let (object, pool) ← Uray.borrowObj fuel state.pool
      return ⟨pool, object.toList ++ state.borrowed⟩
  | .returnObj fuel object => do
      let pool ← Uray.returnObj fuel state.pool object
      return ⟨pool, state.borrowed.erase object⟩

/-- Only borrowed objects are returned. -/
def Enabled (state : State) : Event → Prop
  | .borrowObj _ => True
  | .returnObj _ object => object ∈ state.borrowed

def machine (processors count parallelCount : Nat) : Machine State Event where
  Init state := state = ⟨.new processors count parallelCount, []⟩
  Enabled := Enabled
  step := step

end MallocSurvey.Uray

/-! # The queues of the pool

Every list keeps a queue with one node more than it has objects available. The
counter of the pool exceeds the sum of the lists' counters by the remainder of the
division that gave the lists their shares. -/

namespace MallocSurvey.Uray

open Library

/-! ## What the constructors make -/

theorem linkStorage_eq (list : Nat) (next : ObjectPoolNode → Option ObjectPoolNode)
    (count : Nat) (node : ObjectPoolNode) :
    linkStorage list next count node =
      if node.list = list ∧ node.index < count then some ⟨list, node.index + 1⟩
      else next node := by
  induction count with
  | zero => rw [if_neg (fun inside => Nat.not_lt_zero _ inside.2)]; rfl
  | succ count induction =>
      unfold linkStorage
      by_cases isLast : node = ⟨list, count⟩
      · subst isLast
        rw [Function.update_self, if_pos ⟨rfl, Nat.lt_succ_self count⟩]
      · rw [Function.update_of_ne isLast, induction]
        have same : (node.list = list ∧ node.index < count) ↔
            (node.list = list ∧ node.index < count + 1) := by
          constructor
          · intro inside
            exact ⟨inside.1, Nat.lt_succ_of_lt inside.2⟩
          · intro inside
            refine ⟨inside.1, Nat.lt_of_le_of_ne (Nat.lt_succ_iff.mp inside.2) ?_⟩
            intro indexEq
            obtain ⟨list', index⟩ := node
            exact isLast (by rw [← inside.1, ← indexEq])
        by_cases inside : node.list = list ∧ node.index < count
        · rw [if_pos inside, if_pos (same.mp inside)]
        · rw [if_neg inside, if_neg (fun wider => inside (same.mpr wider))]

theorem joinLists_eq (lists : Nat → ObjectPoolList) (bound list : Nat) :
    joinLists lists bound list =
      if list < bound then { lists list with nextList := list + 1 } else lists list := by
  induction bound with
  | zero => rfl
  | succ bound induction =>
      unfold joinLists setNextList
      by_cases isLast : list = bound
      · subst isLast
        rw [Function.update_self, induction, if_neg (Nat.lt_irrefl list),
          if_pos (Nat.lt_succ_self list)]
      · rw [Function.update_of_ne isLast, induction]
        by_cases below : list < bound
        · rw [if_pos below, if_pos (Nat.lt_succ_of_lt below)]
        · rw [if_neg below, if_neg (by omega)]

namespace ObjectPool

theorem makeLists_lists (pool : ObjectPool) (share bound list : Nat) (below : list < bound) :
    (pool.makeLists share bound).lists list = .new list share := by
  induction bound with
  | zero => exact absurd below (Nat.not_lt_zero list)
  | succ bound induction =>
      unfold makeLists
      dsimp only
      by_cases isLast : list = bound
      · subst isLast
        rw [Function.update_self]
      · rw [Function.update_of_ne isLast]
        exact induction (by omega)

theorem makeLists_next (pool : ObjectPool) (share bound : Nat) (node : ObjectPoolNode)
    (below : node.list < bound) (inside : node.index < share) :
    (pool.makeLists share bound).next node = some ⟨node.list, node.index + 1⟩ := by
  induction bound with
  | zero => exact absurd below (Nat.not_lt_zero node.list)
  | succ bound induction =>
      unfold makeLists
      dsimp only
      rw [linkStorage_eq]
      by_cases isLast : node.list = bound
      · rw [if_pos ⟨isLast, inside⟩, isLast]
      · rw [if_neg (fun both => isLast both.1)]
        exact induction (by omega)

theorem makeLists_next_last (pool : ObjectPool) (share bound : Nat) (node : ObjectPoolNode)
    (isLast : share ≤ node.index) :
    (pool.makeLists share bound).next node = pool.next node := by
  induction bound with
  | zero => rfl
  | succ bound induction =>
      unfold makeLists
      dsimp only
      rw [linkStorage_eq, if_neg (by omega), induction]

@[simp] theorem makeLists_available (pool : ObjectPool) (share bound : Nat) :
    (pool.makeLists share bound).available = pool.available := by
  induction bound with
  | zero => rfl
  | succ bound induction => exact induction

@[simp] theorem makeLists_listCount (pool : ObjectPool) (share bound : Nat) :
    (pool.makeLists share bound).listCount = pool.listCount := by
  induction bound with
  | zero => rfl
  | succ bound induction => exact induction

end ObjectPool

def listCountOf (processors parallelCount : Nat) : Nat :=
  if parallelCount = 0 then processors else parallelCount

theorem listCountOf_pos {processors : Nat} (someProcessor : 0 < processors)
    (parallelCount : Nat) : 0 < listCountOf processors parallelCount := by
  unfold listCountOf
  split
  · exact someProcessor
  · next given => exact Nat.pos_of_ne_zero given

/-- The nodes that a list is made with. -/
def storage (list share : Nat) : List ObjectPoolNode :=
  (List.range (share + 1)).map (fun index => ⟨list, index⟩)

theorem mem_storage {list share : Nat} {node : ObjectPoolNode} :
    node ∈ storage list share ↔ node.list = list ∧ node.index ≤ share := by
  unfold storage
  rw [List.mem_map]
  constructor
  · rintro ⟨index, inRange, rfl⟩
    exact ⟨rfl, Nat.lt_succ_iff.mp (List.mem_range.mp inRange)⟩
  · rintro ⟨rfl, inside⟩
    exact ⟨node.index, List.mem_range.mpr (Nat.lt_succ_of_le inside), rfl⟩

theorem storage_nodup (list share : Nat) : (storage list share).Nodup := by
  apply List.Nodup.map _ List.nodup_range
  intro left right equal
  exact congrArg ObjectPoolNode.index equal

/-- Nodes of one list in a row make a queue. -/
theorem queue_row {next : ObjectPoolNode → Option ObjectPoolNode} {list : Nat}
    (count start : Nat)
    (linked : ∀ index, index < start + count → next ⟨list, index⟩ = some ⟨list, index + 1⟩)
    (ends : next ⟨list, start + count⟩ = none) :
    Queue next ((List.range' start (count + 1)).map (fun index => ⟨list, index⟩)) := by
  induction count generalizing start with
  | zero => exact ⟨ends, trivial⟩
  | succ count induction =>
      rw [List.range'_succ, List.map_cons]
      refine ⟨?_, induction (start + 1) ?_ ?_⟩
      · rw [linked start (by omega), List.range'_succ]
        rfl
      · intro index below
        exact linked index (by omega)
      · rw [← ends]
        congr 2
        omega

/-! ## The invariant -/

/-- What a list looks like between two calls, its nodes given in order. -/
structure Healthy (next : ObjectPoolNode → Option ObjectPoolNode) (entry : ObjectPoolList)
    (nodes : List ObjectPoolNode) : Prop where
  queue : Queue next nodes
  first : nodes.head? = some entry.first
  last : nodes.getLast? = some entry.last
  length : nodes.length = entry.available + 1
  consumer : entry.consumerLock = false
  producer : entry.producerLock = false

def ObjectPool.sumAvailable (pool : ObjectPool) : Nat :=
  ∑ list ∈ Finset.range pool.listCount, (pool.lists list).available

/-- All nodes, in the queues or borrowed. -/
def nodesOf (listCount : Nat) (queues : Nat → List ObjectPoolNode)
    (borrowed : List ObjectPoolNode) : Multiset ObjectPoolNode :=
  ∑ list ∈ Finset.range listCount, (queues list : Multiset ObjectPoolNode) + borrowed

structure Inv (listCount count : Nat) (queues : Nat → List ObjectPoolNode) (state : State) :
    Prop where
  lists : state.pool.listCount = listCount
  rounds : ∀ list < listCount, (state.pool.lists list).nextList = (list + 1) % listCount
  healthy : ∀ list < listCount,
    Healthy state.pool.next (state.pool.lists list) (queues list)
  apart : (nodesOf listCount queues state.borrowed).Nodup
  made : ∀ node ∈ nodesOf listCount queues state.borrowed,
    node.list < listCount ∧ node.index ≤ count / listCount
  unlinked : ∀ node ∈ state.borrowed, state.pool.next node = none
  counted : state.pool.available = state.pool.sumAvailable + count % listCount
  conserved : state.pool.available + state.borrowed.length = count

theorem mem_nodesOf {listCount : Nat} {queues : Nat → List ObjectPoolNode}
    {borrowed : List ObjectPoolNode} {node : ObjectPoolNode} :
    node ∈ nodesOf listCount queues borrowed ↔
      (∃ list < listCount, node ∈ queues list) ∨ node ∈ borrowed := by
  unfold nodesOf
  simp only [Multiset.mem_add, Multiset.mem_sum, Finset.mem_range, Multiset.mem_coe]

theorem Inv.new {processors : Nat} (someProcessor : 0 < processors)
    (count parallelCount : Nat) :
    Inv (listCountOf processors parallelCount) count
      (fun list => storage list (count / listCountOf processors parallelCount))
      ⟨.new processors count parallelCount, []⟩ := by
  have positive := listCountOf_pos someProcessor parallelCount
  generalize listCountEq : listCountOf processors parallelCount = listCount at positive ⊢
  have newLists : ∀ list < listCount,
      (ObjectPool.new processors count parallelCount).lists list =
        { ObjectPoolList.new list (count / listCount) with
          nextList := (list + 1) % listCount } := by
    intro list below
    unfold ObjectPool.new
    change listCountOf processors parallelCount = listCount at listCountEq
    unfold listCountOf at listCountEq
    dsimp only
    rw [listCountEq]
    unfold setNextList
    by_cases isLast : list = listCount - 1
    · rw [← isLast, Function.update_self, joinLists_eq, if_neg (by omega),
        ObjectPool.makeLists_lists _ _ _ _ (by omega)]
      have wraps : (list + 1) % listCount = 0 := by
        rw [show list + 1 = listCount by omega, Nat.mod_self]
      rw [wraps]
    · rw [Function.update_of_ne isLast, joinLists_eq, if_pos (by omega),
        ObjectPool.makeLists_lists _ _ _ _ below, Nat.mod_eq_of_lt (by omega)]
  have newCount : (ObjectPool.new processors count parallelCount).listCount = listCount := by
    unfold ObjectPool.new
    dsimp only
    rw [ObjectPool.makeLists_listCount]
    exact listCountEq
  have newAvailable : (ObjectPool.new processors count parallelCount).available = count := by
    unfold ObjectPool.new
    dsimp only
    rw [ObjectPool.makeLists_available]
  have newNext : ∀ list < listCount, ∀ index < count / listCount,
      (ObjectPool.new processors count parallelCount).next ⟨list, index⟩ =
        some ⟨list, index + 1⟩ := by
    intro list below index inside
    unfold ObjectPool.new
    unfold listCountOf at listCountEq
    dsimp only
    rw [listCountEq]
    exact ObjectPool.makeLists_next _ _ _ ⟨list, index⟩ below inside
  have newLast : ∀ list,
      (ObjectPool.new processors count parallelCount).next ⟨list, count / listCount⟩ = none := by
    intro list
    unfold ObjectPool.new
    unfold listCountOf at listCountEq
    dsimp only
    rw [listCountEq]
    exact ObjectPool.makeLists_next_last _ _ _ ⟨list, count / listCount⟩ (Nat.le_refl _)
  refine ⟨newCount, ?_, ?_, ?_, ?_, ?_, ?_, ?_⟩
  · intro list below
    rw [newLists list below]
  · intro list below
    rw [newLists list below]
    refine ⟨?_, ?_, ?_, ?_, rfl, rfl⟩
    · unfold storage
      rw [List.range_eq_range']
      apply queue_row (count / listCount) 0
      · intro index inside
        exact newNext list below index (by omega)
      · rw [Nat.zero_add]
        exact newLast list
    · unfold storage
      rw [List.range_eq_range', List.range'_succ]
      rfl
    · unfold storage
      rw [List.range_succ, List.map_append, List.map_singleton, List.getLast?_concat]
      rfl
    · unfold storage
      rw [List.length_map, List.length_range]
      rfl
  · unfold nodesOf
    rw [Multiset.coe_nil, add_zero]
    apply nodup_sum_of_owner
    · intro list _
      exact Multiset.coe_nodup.mpr (storage_nodup list _)
    · intro left _ right _ node inLeft inRight
      exact (mem_storage.mp (Multiset.mem_coe.mp inLeft)).1.symm.trans
        (mem_storage.mp (Multiset.mem_coe.mp inRight)).1
  · intro node member
    rcases mem_nodesOf.mp member with ⟨list, below, inStorage⟩ | inBorrowed
    · have located := mem_storage.mp inStorage
      exact ⟨located.1 ▸ below, located.2⟩
    · cases inBorrowed
  · intro node member
    cases member
  · dsimp only
    rw [newAvailable]
    unfold ObjectPool.sumAvailable
    rw [newCount]
    have shares : ∀ list ∈ Finset.range listCount,
        ((ObjectPool.new processors count parallelCount).lists list).available =
          count / listCount := by
      intro list inRange
      rw [newLists list (Finset.mem_range.mp inRange)]
      rfl
    rw [Finset.sum_const_nat shares, Finset.card_range, Nat.div_add_mod]
  · dsimp only
    rw [newAvailable]
    rfl

/-! ## The calls -/

theorem Healthy.write {next : ObjectPoolNode → Option ObjectPoolNode}
    {entry : ObjectPoolList} {nodes : List ObjectPoolNode} (healthy : Healthy next entry nodes)
    {node : ObjectPoolNode} (absent : node ∉ nodes) (link : Option ObjectPoolNode) :
    Healthy (Function.update next node link) entry nodes :=
  { healthy with queue := healthy.queue.write absent link }

/-- Moving a node from the front of a queue to the borrowed ones. -/
theorem nodesOf_take {listCount list : Nat} (below : list < listCount)
    {queues : Nat → List ObjectPoolNode} {first : ObjectPoolNode}
    {rest borrowed : List ObjectPoolNode} (queueEq : queues list = first :: rest) :
    nodesOf listCount (Function.update queues list rest) (first :: borrowed) =
      nodesOf listCount queues borrowed := by
  have total := total_update queues
    (fun _ nodes => (nodes : Multiset ObjectPoolNode)) (Finset.mem_range.mpr below) rest
  rw [queueEq, ← Multiset.cons_coe, ← Multiset.singleton_add, ← add_assoc] at total
  unfold nodesOf
  rw [← add_right_cancel total, ← Multiset.cons_coe, ← Multiset.singleton_add, add_assoc]

/-- Moving a borrowed node behind a queue. -/
theorem nodesOf_put {listCount list : Nat} (below : list < listCount)
    {queues : Nat → List ObjectPoolNode} {node : ObjectPoolNode}
    {borrowed : List ObjectPoolNode} (member : node ∈ borrowed) :
    nodesOf listCount (Function.update queues list (queues list ++ [node]))
        (borrowed.erase node) =
      nodesOf listCount queues borrowed := by
  have total := total_update queues
    (fun _ nodes => (nodes : Multiset ObjectPoolNode)) (Finset.mem_range.mpr below)
    (queues list ++ [node])
  rw [← Multiset.coe_add, ← add_assoc, add_right_comm] at total
  have split : (borrowed : Multiset ObjectPoolNode) =
      ([node] : List ObjectPoolNode) + (borrowed.erase node : Multiset ObjectPoolNode) := by
    rw [Multiset.coe_add]
    exact Multiset.coe_eq_coe.mpr (List.perm_cons_erase member)
  unfold nodesOf
  rw [add_right_cancel total, split, ← add_assoc]

theorem sumAvailable_update (pool : ObjectPool) {list : Nat} (below : list < pool.listCount)
    (entry : ObjectPoolList) (next : ObjectPoolNode → Option ObjectPoolNode)
    (available : Nat) :
    (ObjectPool.mk (Function.update pool.lists list entry) next available
        pool.listCount).sumAvailable + (pool.lists list).available =
      pool.sumAvailable + entry.available :=
  total_update pool.lists (fun _ entry => entry.available) (Finset.mem_range.mpr below) entry

namespace Inv

variable {listCount count : Nat} {queues : Nat → List ObjectPoolNode} {state : State}

theorem queue_nodup (inv : Inv listCount count queues state) {list : Nat}
    (below : list < listCount) : (queues list).Nodup := by
  have part : (queues list : Multiset ObjectPoolNode) ≤
      nodesOf listCount queues state.borrowed :=
    (share_le_total (fun list => (queues list : Multiset ObjectPoolNode))
      (Finset.mem_range.mpr below)).trans (Multiset.le_add_right _ _)
  exact Multiset.coe_nodup.mp (Multiset.nodup_of_le part inv.apart)

theorem borrowed_nodup (inv : Inv listCount count queues state) : state.borrowed.Nodup :=
  Multiset.coe_nodup.mp (Multiset.nodup_of_le (Multiset.le_add_left _ _) inv.apart)

/-- No node of a queue is borrowed. -/
theorem not_borrowed (inv : Inv listCount count queues state) {list : Nat}
    (below : list < listCount) {node : ObjectPoolNode} (member : node ∈ queues list) :
    node ∉ state.borrowed := by
  intro inBorrowed
  have apart := (Multiset.nodup_add.mp inv.apart).2.2
  apply Multiset.disjoint_left.mp apart _ (Multiset.mem_coe.mpr inBorrowed)
  exact Multiset.mem_sum.mpr ⟨list, Finset.mem_range.mpr below, Multiset.mem_coe.mpr member⟩

theorem same_list (inv : Inv listCount count queues state) {left right : Nat}
    (leftBelow : left < listCount) (rightBelow : right < listCount) {node : ObjectPoolNode}
    (inLeft : node ∈ queues left) (inRight : node ∈ queues right) : left = right :=
  holder_unique (Multiset.nodup_add.mp inv.apart).1 (Finset.mem_range.mpr leftBelow)
    (Finset.mem_range.mpr rightBelow) (Multiset.mem_coe.mpr inLeft)
    (Multiset.mem_coe.mpr inRight)

/-- The first node of a list with an object available is borrowed. -/
theorem take (inv : Inv listCount count queues state) {list : Nat} (below : list < listCount)
    (some_available : 0 < (state.pool.lists list).available) :
    ∃ first second rest pool, queues list = first :: second :: rest ∧
      (state.pool.lockConsumer list).2.takeFirst list = (some first, pool) ∧
      Inv listCount count (Function.update queues list (second :: rest))
        ⟨pool, first :: state.borrowed⟩ := by
  have healthy := inv.healthy list below
  have long := healthy.length
  obtain ⟨first, rest, queueEq⟩ : ∃ first rest, queues list = first :: rest :=
    List.exists_cons_of_length_pos (by omega)
  rw [queueEq] at healthy long
  obtain ⟨second, rest, rfl⟩ : ∃ second tail, rest = second :: tail :=
    List.exists_cons_of_length_pos (by rw [List.length_cons] at long; omega)
  have firstEq : (state.pool.lists list).first = first := (Option.some.inj healthy.first).symm
  have nextEq : state.pool.next first = some second := healthy.queue.1
  have nodup : (first :: second :: rest).Nodup := queueEq ▸ inv.queue_nodup below
  let entry : ObjectPoolList :=
    { state.pool.lists list with
      first := second, available := (state.pool.lists list).available - 1 }
  have taken : (state.pool.lockConsumer list).2.takeFirst list =
      (some first,
        { state.pool with
          lists := Function.update state.pool.lists list entry
          next := Function.update state.pool.next first none
          available := state.pool.available - 1 }) := by
    unfold ObjectPool.takeFirst ObjectPool.lockConsumer ObjectPool.unlockConsumer
    dsimp only
    simp only [Function.update_self, Function.update_idem, firstEq, nextEq]
    have unlocked : entry.consumerLock = false := healthy.consumer
    rw [← unlocked]
  refine ⟨first, second, rest, _, queueEq, taken, ?_⟩
  have counts : state.pool.available = state.pool.sumAvailable + count % listCount :=
    inv.counted
  have conserved := inv.conserved
  have sums := sumAvailable_update state.pool (inv.lists ▸ below) entry
    (Function.update state.pool.next first none) (state.pool.available - 1)
  change _ = _ + ((state.pool.lists list).available - 1) at sums
  refine ⟨inv.lists, ?_, ?_, ?_, ?_, ?_, ?_, ?_⟩
  · intro other otherBelow
    dsimp only
    by_cases same : other = list
    · subst same
      rw [Function.update_self]
      exact inv.rounds other otherBelow
    · rw [Function.update_of_ne same]
      exact inv.rounds other otherBelow
  · intro other otherBelow
    dsimp only
    by_cases same : other = list
    · subst same
      rw [Function.update_self, Function.update_self]
      refine ⟨healthy.queue.2.write (List.nodup_cons.mp nodup).1 none, rfl, ?_, ?_,
        healthy.consumer, healthy.producer⟩
      · rw [← List.getLast?_cons_cons (a := first)]
        exact healthy.last
      · rw [List.length_cons] at long ⊢
        change rest.length + 1 = (state.pool.lists other).available - 1 + 1
        rw [List.length_cons] at long
        omega
    · rw [Function.update_of_ne same, Function.update_of_ne same]
      apply (inv.healthy other otherBelow).write
      intro member
      exact same (inv.same_list otherBelow below member (queueEq ▸ List.mem_cons_self))
  · dsimp only
    rw [nodesOf_take below queueEq]
    exact inv.apart
  · dsimp only
    rw [nodesOf_take below queueEq]
    exact inv.made
  · intro node member
    dsimp only
    by_cases same : node = first
    · rw [same, Function.update_self]
    · rw [Function.update_of_ne same]
      exact inv.unlinked node ((List.mem_cons.mp member).resolve_left same)
  · dsimp only
    omega
  · dsimp only
    rw [List.length_cons]
    omega

/-- A borrowed node goes behind a list. -/
theorem put (inv : Inv listCount count queues state) {list : Nat} (below : list < listCount)
    {node : ObjectPoolNode} (member : node ∈ state.borrowed) :
    Inv listCount count (Function.update queues list (queues list ++ [node]))
      ⟨(state.pool.lockProducer list).2.putLast list node, state.borrowed.erase node⟩ := by
  have healthy := inv.healthy list below
  let entry : ObjectPoolList :=
    { state.pool.lists list with
      last := node, producerLock := false
      available := (state.pool.lists list).available + 1 }
  have put : (state.pool.lockProducer list).2.putLast list node =
      { state.pool with
        lists := Function.update state.pool.lists list entry
        next := Function.update state.pool.next (state.pool.lists list).last (some node)
        available := state.pool.available + 1 } := by
    unfold ObjectPool.putLast ObjectPool.lockProducer
    dsimp only
    simp only [Function.update_self, Function.update_idem]
    rfl
  rw [put]
  have lastMem : (state.pool.lists list).last ∈ queues list := List.mem_of_getLast? healthy.last
  have absent : ∀ other < listCount, node ∉ queues other := by
    intro other otherBelow inQueue
    exact inv.not_borrowed otherBelow inQueue member
  have conserved := inv.conserved
  have counts := inv.counted
  have sums := sumAvailable_update state.pool (inv.lists ▸ below) entry
    (Function.update state.pool.next (state.pool.lists list).last (some node))
    (state.pool.available + 1)
  change _ = _ + ((state.pool.lists list).available + 1) at sums
  refine ⟨inv.lists, ?_, ?_, ?_, ?_, ?_, ?_, ?_⟩
  · intro other otherBelow
    dsimp only
    by_cases same : other = list
    · subst same
      rw [Function.update_self]
      exact inv.rounds other otherBelow
    · rw [Function.update_of_ne same]
      exact inv.rounds other otherBelow
  · intro other otherBelow
    dsimp only
    by_cases same : other = list
    · subst same
      rw [Function.update_self, Function.update_self]
      refine ⟨healthy.queue.append (inv.queue_nodup below) healthy.last (absent other below)
        (inv.unlinked node member), ?_, List.getLast?_concat, ?_, healthy.consumer, rfl⟩
      · rw [List.head?_append, healthy.first]
        rfl
      · rw [List.length_append, healthy.length]
        rfl
    · rw [Function.update_of_ne same, Function.update_of_ne same]
      apply (inv.healthy other otherBelow).write
      intro inOther
      exact same (inv.same_list otherBelow below inOther lastMem)
  · dsimp only
    rw [nodesOf_put below member]
    exact inv.apart
  · dsimp only
    rw [nodesOf_put below member]
    exact inv.made
  · intro other otherMem
    have otherBorrowed : other ∈ state.borrowed := List.mem_of_mem_erase otherMem
    have notLast : other ≠ (state.pool.lists list).last := by
      rintro rfl
      exact inv.not_borrowed below lastMem otherBorrowed
    dsimp only
    rw [Function.update_of_ne notLast]
    exact inv.unlinked other otherBorrowed
  · dsimp only
    omega
  · dsimp only
    have shorter := List.length_erase_of_mem member
    have nonempty := List.length_pos_of_mem member
    omega

/-! ### The loops -/

/-- A turn of the loop of `borrowObj`, the flags being clear. -/
theorem findConsumer_succ (inv : Inv listCount count queues state) {list : Nat}
    (below : list < listCount) (fuel : Nat) :
    findConsumer (fuel + 1) state.pool list =
      if (state.pool.lists list).available = 0 then
        if state.pool.available = 0 then some (none, state.pool)
        else findConsumer fuel state.pool ((list + 1) % listCount)
      else some (some list, (state.pool.lockConsumer list).2) := by
  have unlocked : (state.pool.lists list).consumerLock = false :=
    (inv.healthy list below).consumer
  rw [← inv.rounds list below]
  conv_lhs => unfold findConsumer
  by_cases empty : (state.pool.lists list).available = 0
  · simp only [if_pos empty, if_true]
  · simp only [if_neg empty]
    unfold ObjectPool.lockConsumer
    simp only [unlocked, Bool.false_eq_true, if_false]

/-- The loop ends at a list with an object, or without one when the pool has none. -/
theorem findConsumer_cases (inv : Inv listCount count queues state) {fuel list : Nat}
    (below : list < listCount) {found : Option Nat} {pool : ObjectPool}
    (result : findConsumer fuel state.pool list = some (found, pool)) :
    (found = none ∧ pool = state.pool ∧ state.pool.available = 0) ∨
      ∃ target < listCount, found = some target ∧
        0 < (state.pool.lists target).available ∧
        pool = (state.pool.lockConsumer target).2 := by
  induction fuel generalizing list with
  | zero => cases result
  | succ fuel induction =>
      rw [inv.findConsumer_succ below] at result
      split at result
      · split at result
        · next none_left =>
            cases result
            exact .inl ⟨rfl, rfl, none_left⟩
        · exact induction (Nat.mod_lt _ (Nat.zero_lt_of_lt below)) result
      · next stocked =>
          cases result
          exact .inr ⟨list, below, rfl, Nat.pos_of_ne_zero stocked, rfl⟩

/-- The loop comes to a list with an object after at most one round. -/
theorem findConsumer_ends (inv : Inv listCount count queues state) {target : Nat}
    (targetBelow : target < listCount)
    (stocked : 0 < (state.pool.lists target).available) (distance list : Nat)
    (below : list < listCount) (reaches : (list + distance) % listCount = target) :
    ∃ fuel result, findConsumer fuel state.pool list = some result := by
  induction distance generalizing list with
  | zero =>
      rw [Nat.add_zero, Nat.mod_eq_of_lt below] at reaches
      subst reaches
      refine ⟨1, (some list, (state.pool.lockConsumer list).2), ?_⟩
      rw [inv.findConsumer_succ below, if_neg (Nat.ne_of_gt stocked)]
  | succ distance induction =>
      have onward : ((list + 1) % listCount + distance) % listCount = target := by
        rw [Nat.mod_add_mod, ← reaches]
        congr 1
        omega
      obtain ⟨fuel, result, ends⟩ :=
        induction ((list + 1) % listCount) (Nat.mod_lt _ (Nat.zero_lt_of_lt below)) onward
      by_cases empty : (state.pool.lists list).available = 0
      · by_cases none_left : state.pool.available = 0
        · refine ⟨1, (none, state.pool), ?_⟩
          rw [inv.findConsumer_succ below, if_pos empty, if_pos none_left]
        · refine ⟨fuel + 1, result, ?_⟩
          rw [inv.findConsumer_succ below, if_pos empty, if_neg none_left]
          exact ends
      · refine ⟨1, (some list, (state.pool.lockConsumer list).2), ?_⟩
        rw [inv.findConsumer_succ below, if_neg empty]

/-- With nothing in the lists and something in the pool's counter the loop goes round
for ever. -/
theorem findConsumer_stuck (inv : Inv listCount count queues state)
    (empty : ∀ list < listCount, (state.pool.lists list).available = 0)
    (counted : state.pool.available ≠ 0) (fuel list : Nat) (below : list < listCount) :
    findConsumer fuel state.pool list = none := by
  induction fuel generalizing list with
  | zero => rfl
  | succ fuel induction =>
      rw [inv.findConsumer_succ below, if_pos (empty list below), if_neg counted]
      exact induction _ (Nat.mod_lt _ (Nat.zero_lt_of_lt below))

/-- What a call of `borrowObj` that returns has done. -/
inductive Borrowed (listCount count : Nat) (state : State) :
    Option ObjectPoolNode → ObjectPool → Prop
  | refused : state.pool.available = 0 → Borrowed listCount count state none state.pool
  | taken {queues : Nat → List ObjectPoolNode} {object : ObjectPoolNode} {pool : ObjectPool} :
      object ∉ state.borrowed →
      object.list < listCount → object.index ≤ count / listCount →
      Inv listCount count queues ⟨pool, object :: state.borrowed⟩ →
      Borrowed listCount count state (some object) pool

theorem borrowObj_cases (inv : Inv listCount count queues state) (positive : 0 < listCount)
    {fuel : Nat} {object : Option ObjectPoolNode} {pool : ObjectPool}
    (result : borrowObj fuel state.pool = some (object, pool)) :
    Borrowed listCount count state object pool := by
  unfold borrowObj at result
  cases found : findConsumer fuel state.pool 0 with
  | none => simp [found] at result
  | some outcome =>
      obtain ⟨target, locked⟩ := outcome
      simp only [found, Option.bind_eq_bind, Option.bind_some] at result
      rcases inv.findConsumer_cases positive found with
        ⟨rfl, rfl, none_left⟩ | ⟨target, below, rfl, stocked, rfl⟩
      · cases result
        exact .refused none_left
      · obtain ⟨first, second, rest, taken, queueEq, takes, takenInv⟩ :=
          inv.take below stocked
        have inQueue : first ∈ queues target := queueEq ▸ List.mem_cons_self
        have located := inv.made first (mem_nodesOf.mpr (.inl ⟨target, below, inQueue⟩))
        dsimp only at result
        rw [takes] at result
        cases result
        exact .taken (inv.not_borrowed below inQueue) located.1 located.2 takenInv

/-- `returnObj` puts the object behind the first list. -/
theorem returnObj_succ (inv : Inv listCount count queues state) (positive : 0 < listCount)
    (fuel : Nat) (object : ObjectPoolNode) :
    returnObj (fuel + 1) state.pool object =
      some ((state.pool.lockProducer 0).2.putLast 0 object) := by
  have unlocked : (state.pool.lists 0).producerLock = false := (inv.healthy 0 positive).producer
  have free : (state.pool.lockProducer 0).1 = false := unlocked
  unfold returnObj findProducer
  simp only [free, Bool.false_eq_true, if_false, Option.bind_eq_bind, Option.bind_some,
    pure]

theorem sum_pos_iff (inv : Inv listCount count queues state) :
    0 < state.pool.sumAvailable ↔
      ∃ list < listCount, 0 < (state.pool.lists list).available := by
  unfold ObjectPool.sumAvailable
  rw [Finset.sum_pos_iff, inv.lists]
  simp only [Finset.mem_range]

/-- A call of `borrowObj` returns if a list has an object or the pool has none. -/
theorem borrowObj_ends (inv : Inv listCount count queues state) (positive : 0 < listCount)
    (served : 0 < state.pool.sumAvailable ∨ state.pool.available = 0) :
    ∃ fuel result, borrowObj fuel state.pool = some result := by
  have ends : ∃ fuel result, findConsumer fuel state.pool 0 = some result := by
    by_cases stocked : 0 < state.pool.sumAvailable
    · obtain ⟨target, below, available⟩ := inv.sum_pos_iff.mp stocked
      apply inv.findConsumer_ends below available target 0 positive
      rw [Nat.zero_add, Nat.mod_eq_of_lt below]
    · have none_left : state.pool.available = 0 := served.resolve_left stocked
      have empty : (state.pool.lists 0).available = 0 := by
        by_contra available
        exact stocked (inv.sum_pos_iff.mpr ⟨0, positive, Nat.pos_of_ne_zero available⟩)
      refine ⟨1, (none, state.pool), ?_⟩
      rw [inv.findConsumer_succ positive, if_pos empty, if_pos none_left]
  obtain ⟨fuel, ⟨found, pool⟩, result⟩ := ends
  unfold borrowObj
  cases found with
  | none => exact ⟨fuel, (none, pool), by rw [result]; rfl⟩
  | some target => exact ⟨fuel, pool.takeFirst target, by rw [result]; rfl⟩

end Inv

end MallocSurvey.Uray
