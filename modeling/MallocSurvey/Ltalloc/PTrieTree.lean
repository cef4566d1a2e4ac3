import Mathlib.Logic.Function.Basic
import MallocSurvey.Ltalloc.PTrie

/-! # Patricia trees as finite maps

The tree that a `PTrie` stores, with the operations of the source on it. Under
a node whose prefix ends at bit `e` every key of child `b` agrees with the
node's `keys[b]` from bit `e` upwards; `keys[b]` may be the key of an entry that
was removed, and then serves as a witness of that prefix only. -/

namespace MallocSurvey.Ltalloc

open Library

inductive Trie
  | null
  | leaf (value : Word)
  | node (address : Word) (keys : Bool → Word) (children : Bool → Trie)

namespace Trie

/-- The word stored for this tree in its parent. -/
def ptr : Trie → Word
  | null => ptrieNullNode
  | leaf value => value ||| 1
  | node address _ _ => address

@[simp] theorem ptr_null : null.ptr = ptrieNullNode := rfl

@[simp] theorem ptr_leaf (value : Word) : (leaf value).ptr = value ||| 1 := rfl

@[simp] theorem ptr_node (address : Word) (keys : Bool → Word)
    (children : Bool → Trie) : (node address keys children).ptr = address := rfl

/-- `keys[0] & 0xFF`. -/
def prefixEnd (keys : Bool → Word) : Nat := (lowByte (keys false)).toNat

/-- The value found under `key`; `witness` is the key stored beside the pointer
to this tree. -/
def find (key : Word) : Trie → Word → Option Word
  | null, _ => none
  | leaf value, witness => if clearLowByte witness = key then some value else none
  | node _ keys children, _ =>
      find key (children (key.getLsbD (prefixEnd keys)))
        (keys (key.getLsbD (prefixEnd keys)))

def nullCount : Trie → Nat
  | null => 1
  | leaf _ => 0
  | node _ _ children => nullCount (children false) + nullCount (children true)

def depth : Trie → Nat
  | null => 0
  | leaf _ => 0
  | node _ _ children => max (depth (children false)) (depth (children true)) + 1

/-- A new node above `below`, split at the highest bit of `x`. -/
def graft (below : Trie) (pkey x key value newNode : Word) : Trie :=
  .node newNode
    (fun side =>
      let stored := if side = key.getLsbD (bsr x) then key else pkey
      if side then stored else stored ||| BitVec.ofNat 64 (bsr x))
    (fun side => if side = key.getLsbD (bsr x) then .leaf value else below)

/-- `ptrie_insert`; `stale` is what `newNode->keys[1]` held before. -/
def insert (key value newNode stale : Word) : Trie → Word → Trie
  | null, _ =>
      .node newNode (fun side => if side then stale else key)
        (fun side => if side then .null else .leaf value)
  | leaf old, witness =>
      graft (.leaf old) (clearLowByte witness) (key ^^^ clearLowByte witness)
        key value newNode
  | node address keys children, _ =>
      let branch := key.getLsbD (prefixEnd keys)
      if (key ^^^ keys false) &&& (~~~1#64) <<< prefixEnd keys = 0 then
        .node address keys (Function.update children branch
          (insert key value newNode stale (children branch) (keys branch)))
      else
        graft (.node address keys children) (clearLowByte (keys false))
          (key ^^^ keys false) key value newNode

/-- The witness a removed node leaves to its sibling's new place. -/
def liftedKey (sibling : Trie) (siblingKey witness : Word) : Word :=
  match sibling with
  | leaf _ => clearLowByte siblingKey ||| lowByte witness
  | _ => witness

/-- `ptrie_remove`: the remaining tree, the key now stored beside the pointer to
it, the value of `key` and the node taken out. -/
def remove (key : Word) : Trie → Word → Option (Trie × Word × Word × Word)
  | null, _ => none
  | leaf _, _ => none
  | node address keys children, witness =>
      let branch := key.getLsbD (prefixEnd keys)
      match children branch with
      | null => none
      | leaf value =>
          if clearLowByte (keys branch) = key then
            some (children (!branch),
              liftedKey (children (!branch)) (keys (!branch)) witness,
              value, address)
          else none
      | node _ _ _ => do
          let (child, childKey, value, removed) ←
            remove key (children branch) (keys branch)
          return (.node address (Function.update keys branch childKey)
            (Function.update children branch child), witness, value, removed)

/-- Values are even and not null. -/
def IsValue (value : Word) : Prop := value.getLsbD 0 = false ∧ value ≠ 0

/-- A tree whose keys agree with `witness` from bit `top` upwards. -/
inductive Valid : Trie → Nat → Word → Prop
  | null {top witness} : Valid .null top witness
  | leaf {value top witness} : IsValue value → Valid (.leaf value) top witness
  /-- The node of the first insertion into a null pointer. -/
  | bottom {address keys children top witness value} :
      lowByte (keys false) = 0 → AgreeFrom top witness (keys false) →
      IsValue value → children false = .leaf value → children true = .null →
      Valid (.node address keys children) top witness
  | inner {address keys children top witness} :
      8 ≤ prefixEnd keys → prefixEnd keys < top →
      AgreeFrom top witness (keys false) →
      AgreeFrom (prefixEnd keys + 1) (keys false) (keys true) →
      (∀ branch, (keys branch).getLsbD (prefixEnd keys) = branch) →
      (∀ branch, Valid (children branch) (prefixEnd keys) (keys branch)) →
      Valid (.node address keys children) top witness

theorem prefixEnd_eq_zero {keys : Bool → Word} (aligned : lowByte (keys false) = 0) :
    prefixEnd keys = 0 := by
  rw [prefixEnd, aligned]
  rfl

/-- An aligned key descends to the left of a bottom node. -/
theorem find_bottom {address key witness : Word} {keys : Bool → Word}
    {children : Bool → Trie} (aligned : lowByte (keys false) = 0)
    (keyAligned : lowByte key = 0) :
    (node address keys children).find key witness =
      (children false).find key (keys false) := by
  rw [find, prefixEnd_eq_zero aligned,
    getLsbD_of_lowByte_eq_zero keyAligned (by omega)]

namespace Valid

/-- A tree may be hung under a wider prefix that its own witness satisfies. -/
theorem weaken {tree : Trie} {top higher : Nat} {witness other : Word}
    (valid : Valid tree top witness) (le : top ≤ higher)
    (agree : AgreeFrom higher other witness) : Valid tree higher other := by
  cases valid with
  | null => exact .null
  | leaf isValue => exact .leaf isValue
  | bottom aligned keyAgree isValue left right =>
      exact .bottom aligned (agree.trans (keyAgree.mono le)) isValue left right
  | inner byte below keyAgree keysAgree bits children =>
      exact .inner byte (by omega) (agree.trans (keyAgree.mono le)) keysAgree
        bits children

theorem depth_le {tree : Trie} {top : Nat} {witness : Word}
    (valid : Valid tree top witness) : tree.depth ≤ top + 1 := by
  induction valid with
  | null => simp [Trie.depth]
  | leaf _ => simp [Trie.depth]
  | bottom _ _ _ left right => simp [Trie.depth, left, right]
  | inner _ below _ _ _ _ induction =>
      have left := induction false
      have right := induction true
      simp only [Trie.depth]
      omega

/-- Every key found below agrees with the witness on the prefix. -/
theorem agree_of_find {tree : Trie} {top : Nat} {witness : Word}
    (valid : Valid tree top witness) (byte : 8 ≤ top) {key value : Word}
    (found : tree.find key witness = some value) :
    AgreeFrom top witness key := by
  induction valid with
  | null => cases found
  | leaf _ =>
      simp only [Trie.find, Option.ite_none_right_eq_some] at found
      rw [← found.1]
      exact (clearLowByte_agreeFrom _ byte).symm
  | @bottom _ keys children top witness value aligned agree _ left right =>
      simp only [Trie.find, prefixEnd_eq_zero aligned] at found
      cases low : key.getLsbD 0 with
      | true => rw [low, right] at found; cases found
      | false =>
          rw [low, left] at found
          simp only [Trie.find, Option.ite_none_right_eq_some] at found
          rw [← found.1]
          exact agree.trans (clearLowByte_agreeFrom _ byte).symm
  | @inner _ keys children top witness eight below agree keysAgree _ _ induction =>
      have childAgree := induction _ eight found
      have branchAgree : AgreeFrom (prefixEnd keys + 1) (keys false)
          (keys (key.getLsbD (prefixEnd keys))) := by
        cases key.getLsbD (prefixEnd keys) with
        | false => exact .refl _ _
        | true => exact keysAgree
      exact agree.trans ((branchAgree.mono below).trans (childAgree.mono below.le))

/-- A tree with at most one null child holds some key. -/
theorem exists_find {tree : Trie} {top : Nat} {witness : Word}
    (valid : Valid tree top witness) (byte : 8 ≤ top) (notNull : tree ≠ .null)
    (count : tree.nullCount ≤ 1) :
    ∃ key value, lowByte key = 0 ∧ tree.find key witness = some value := by
  induction valid with
  | null => exact absurd rfl notNull
  | @leaf value _ witness _ =>
      exact ⟨clearLowByte witness, value, lowByte_clearLowByte witness,
        by simp [Trie.find]⟩
  | @bottom _ keys children _ _ value aligned _ _ left _ =>
      refine ⟨keys false, value, aligned, ?_⟩
      rw [find_bottom aligned aligned, left]
      simp [Trie.find, clearLowByte_eq_self aligned]
  | @inner _ keys children _ _ eight below _ _ bits childrenValid induction =>
      have nonNull : ∃ branch, children branch ≠ .null := by
        by_contra allNull
        push Not at allNull
        simp [nullCount, allNull] at count
      obtain ⟨branch, childNotNull⟩ := nonNull
      have childCount : (children branch).nullCount ≤ 1 := by
        simp only [nullCount] at count
        cases branch <;> omega
      obtain ⟨key, value, keyAligned, found⟩ :=
        induction branch eight childNotNull childCount
      have agree := (childrenValid branch).agree_of_find eight found
      have taken : key.getLsbD (prefixEnd keys) = branch := by
        rw [← agree _ (Nat.le_refl _), bits branch]
      refine ⟨key, value, keyAligned, ?_⟩
      rw [Trie.find, taken]
      exact found

end Valid

/-! ## Insertion -/

/-- `bsr x` is the highest bit in which the two keys differ. -/
structure SplitAt (x key pkey : Word) : Prop where
  byte : 8 ≤ bsr x
  above : AgreeFrom (bsr x + 1) key pkey
  differ : pkey.getLsbD (bsr x) = !key.getLsbD (bsr x)

theorem SplitAt.lt_of_agree {x key pkey : Word} (split : SplitAt x key pkey)
    (agree : AgreeFrom top key pkey) : bsr x < top := by
  by_contra high
  have same := agree (bsr x) (by omega)
  rw [split.differ] at same
  simp at same

theorem byte_le_bsr {left right : Word} (leftAligned : lowByte left = 0)
    (rightAligned : lowByte right = 0) (different : left ^^^ right ≠ 0) :
    8 ≤ bsr (left ^^^ right) := by
  by_contra small
  have set := getLsbD_bsr different
  rw [BitVec.getLsbD_xor, getLsbD_of_lowByte_eq_zero leftAligned (by omega),
    getLsbD_of_lowByte_eq_zero rightAligned (by omega)] at set
  cases set

/-- Two different aligned keys are split by their exclusive or. -/
theorem splitAt_xor {key pkey : Word} (keyAligned : lowByte key = 0)
    (pkeyAligned : lowByte pkey = 0) (different : key ^^^ pkey ≠ 0) :
    SplitAt (key ^^^ pkey) key pkey where
  byte := byte_le_bsr keyAligned pkeyAligned different
  above := AgreeFrom.above_bsr_xor key pkey
  differ := getLsbD_bsr_xor different

/-- A key outside a node's prefix is split from it by the unmasked exclusive
or: the highest difference lies above the low byte. -/
theorem splitAt_xor_clearLowByte {key nodeKey : Word} {bit : Nat} (byte : 8 ≤ bit)
    (outside : ¬ AgreeFrom bit key nodeKey) :
    SplitAt (key ^^^ nodeKey) key (clearLowByte nodeKey) ∧
      bit ≤ bsr (key ^^^ nodeKey) := by
  have high : bit ≤ bsr (key ^^^ nodeKey) := by
    by_contra low
    exact outside ((AgreeFrom.above_bsr_xor key nodeKey).mono (by omega))
  have different : key ^^^ nodeKey ≠ 0 := by
    intro zero
    apply outside
    have equal : key = nodeKey := BitVec.xor_eq_zero_iff.mp zero
    rw [equal]
    exact .refl _ _
  refine ⟨⟨by omega, ?_, ?_⟩, high⟩
  · exact (AgreeFrom.above_bsr_xor key nodeKey).trans
      (clearLowByte_agreeFrom nodeKey (by omega)).symm
  · rw [getLsbD_clearLowByte, getLsbD_bsr_xor different]
    simp [show 8 ≤ bsr (key ^^^ nodeKey) by omega]

section Graft

variable {below : Trie} {pkey x key value newNode : Word} {top : Nat}
  {witness : Word}

/-- The keys of the node that `graft` makes. -/
def graftKeys (pkey x key : Word) (side : Bool) : Word :=
  let stored := if side = key.getLsbD (bsr x) then key else pkey
  if side then stored else stored ||| BitVec.ofNat 64 (bsr x)

theorem bsr_lt_256 (x : Word) : bsr x < 256 := by
  by_cases zero : x = 0
  · subst zero
    decide
  · have inRange := lt_width_of_getLsbD (getLsbD_bsr zero)
    omega

theorem prefixEnd_graftKeys (keyAligned : lowByte key = 0)
    (pkeyAligned : lowByte pkey = 0) :
    prefixEnd (graftKeys pkey x key) = bsr x := by
  simp only [prefixEnd, graftKeys, Bool.false_eq_true, if_false]
  split_ifs
  · exact lowByte_or_ofNat keyAligned (bsr_lt_256 x)
  · exact lowByte_or_ofNat pkeyAligned (bsr_lt_256 x)

theorem graftKeys_agreeFrom (pkey x key : Word) (side : Bool) :
    AgreeFrom 8 (graftKeys pkey x key side)
      (if side = key.getLsbD (bsr x) then key else pkey) := by
  cases side with
  | true => exact .refl _ _
  | false => exact or_ofNat_agreeFrom _ (bsr_lt_256 x)

theorem graftKeys_bit (split : SplitAt x key pkey) (side : Bool) :
    (graftKeys pkey x key side).getLsbD (bsr x) = side := by
  rw [graftKeys_agreeFrom pkey x key side _ split.byte]
  split_ifs with same
  · exact same.symm
  · rw [split.differ]
    revert same
    cases side <;> cases key.getLsbD (bsr x) <;> simp

theorem graftKeys_above (split : SplitAt x key pkey) (side : Bool) :
    AgreeFrom (bsr x + 1) key (graftKeys pkey x key side) := by
  have stored := (graftKeys_agreeFrom pkey x key side).mono
    (show 8 ≤ bsr x + 1 by have := split.byte; omega)
  split_ifs at stored with same
  · exact stored.symm
  · exact split.above.trans stored.symm

theorem graft_valid (split : SplitAt x key pkey) (keyAligned : lowByte key = 0)
    (pkeyAligned : lowByte pkey = 0) (isValue : IsValue value)
    (low : bsr x < top) (agree : AgreeFrom top witness key)
    (valid : Valid below (bsr x) pkey) :
    Valid (graft below pkey x key value newNode) top witness := by
  have ends := prefixEnd_graftKeys (x := x) keyAligned pkeyAligned
  refine @Valid.inner _ (graftKeys pkey x key) _ _ _ ?_ ?_ ?_ ?_ ?_ ?_
  · rw [ends]
    exact split.byte
  · rw [ends]
    exact low
  · exact agree.trans ((graftKeys_above split false).mono low)
  · rw [ends]
    exact (graftKeys_above split false).symm.trans (graftKeys_above split true)
  · intro branch
    rw [ends]
    exact graftKeys_bit split branch
  · intro branch
    rw [ends]
    have stored := (graftKeys_agreeFrom pkey x key branch).mono split.byte
    split_ifs at stored with same
    · rw [if_pos same]
      exact .leaf isValue
    · rw [if_neg same]
      exact valid.weaken (Nat.le_refl _) stored

/-- A key that takes the other side of the split is not found below. -/
theorem find_eq_none_of_bit {tree : Trie} {bit : Nat} {other : Word}
    (valid : Valid tree bit witness) (byte : 8 ≤ bit)
    (differ : other.getLsbD bit ≠ witness.getLsbD bit) :
    tree.find other witness = none := by
  cases found : tree.find other witness with
  | none => rfl
  | some value =>
      exact absurd (valid.agree_of_find byte found bit (Nat.le_refl _)).symm differ

theorem find_congr_of_clearLowByte_eq (tree : Trie) {left right : Word}
    (same : clearLowByte left = clearLowByte right) (key : Word) :
    tree.find key left = tree.find key right := by
  cases tree with
  | null => rfl
  | leaf _ => simp only [find, same]
  | node _ _ _ => rfl

theorem graft_find (split : SplitAt x key pkey) (keyAligned : lowByte key = 0)
    (pkeyAligned : lowByte pkey = 0) (valid : Valid below (bsr x) pkey)
    (other : Word) :
    (graft below pkey x key value newNode).find other witness =
      if other = key then some value else below.find other pkey := by
  change (node newNode (graftKeys pkey x key) _).find other witness = _
  rw [find, prefixEnd_graftKeys (x := x) keyAligned pkeyAligned]
  have stored := clearLowByte_eq_of_agreeFrom
    (graftKeys_agreeFrom pkey x key (other.getLsbD (bsr x)))
  by_cases same : other.getLsbD (bsr x) = key.getLsbD (bsr x)
  · rw [if_pos same] at stored ⊢
    rw [clearLowByte_eq_self keyAligned] at stored
    have notBelow : below.find other pkey = none := by
      apply find_eq_none_of_bit valid split.byte
      rw [same, split.differ]
      cases key.getLsbD (bsr x) <;> simp
    simp only [find, stored, notBelow, eq_comm]
  · rw [if_neg same] at stored ⊢
    have different : other ≠ key := fun equal => same (by rw [equal])
    rw [if_neg different, find_congr_of_clearLowByte_eq below stored]

end Graft

/-- What an operation on `tree` hung under `witness` must leave behind. -/
structure Outcome (tree : Trie) (witness : Word) (after : Trie) (afterKey : Word)
    (top : Nat) (changed : Word) (value : Option Word) : Prop where
  valid : Valid after top afterKey
  find_eq : ∀ other, lowByte other = 0 → after.find other afterKey =
    if other = changed then value else tree.find other witness
  nullCount_eq : after.nullCount = tree.nullCount

/-- Replacing one child of an inner node, together with the key beside it. -/
theorem Outcome.node {address : Word} {keys : Bool → Word}
    {children : Bool → Trie} {top : Nat} {witness changed childKey : Word}
    {child : Trie} {value : Option Word}
    (valid : Valid (.node address keys children) top witness)
    (byte : 8 ≤ prefixEnd keys) (below : prefixEnd keys < top)
    (keyAgree : AgreeFrom (prefixEnd keys)
      (keys (changed.getLsbD (prefixEnd keys))) childKey)
    (lowSame : lowByte childKey = lowByte (keys (changed.getLsbD (prefixEnd keys))))
    (outcome : Outcome (children (changed.getLsbD (prefixEnd keys)))
      (keys (changed.getLsbD (prefixEnd keys))) child childKey (prefixEnd keys)
      changed value) :
    Outcome (.node address keys children) witness
      (.node address
        (Function.update keys (changed.getLsbD (prefixEnd keys)) childKey)
        (Function.update children (changed.getLsbD (prefixEnd keys)) child))
      witness top changed value := by
  have ends : prefixEnd
      (Function.update keys (changed.getLsbD (prefixEnd keys)) childKey) =
        prefixEnd keys := by
    rw [prefixEnd]
    cases branch : changed.getLsbD (prefixEnd keys) with
    | false =>
        rw [branch] at lowSame
        rw [Function.update_self, lowSame]
        rfl
    | true => rfl
  have keysAgree : ∀ side, AgreeFrom (prefixEnd keys) (keys side)
      (Function.update keys (changed.getLsbD (prefixEnd keys)) childKey side) := by
    intro side
    by_cases same : side = changed.getLsbD (prefixEnd keys)
    · subst same
      rw [Function.update_self]
      exact keyAgree
    · rw [Function.update_of_ne same]
      exact .refl _ _
  cases valid with
  | bottom aligned _ _ _ _ =>
      rw [prefixEnd_eq_zero aligned] at byte
      omega
  | inner _ _ agree sidesAgree bits childrenValid =>
      refine ⟨.inner ?_ ?_ ?_ ?_ ?_ ?_, ?_, ?_⟩
      · rw [ends]
        exact byte
      · rw [ends]
        exact below
      · exact agree.trans ((keysAgree false).mono below.le)
      · rw [ends]
        exact (((keysAgree false).mono (by omega)).symm.trans sidesAgree).trans
          ((keysAgree true).mono (by omega))
      · intro branch
        rw [ends, ← keysAgree branch _ (Nat.le_refl _)]
        exact bits branch
      · intro branch
        rw [ends]
        by_cases same : branch = changed.getLsbD (prefixEnd keys)
        · subst same
          rw [Function.update_self, Function.update_self]
          exact outcome.valid
        · rw [Function.update_of_ne same, Function.update_of_ne same]
          exact childrenValid branch
      · intro other aligned
        rw [find, find, ends]
        by_cases same : other.getLsbD (prefixEnd keys) =
            changed.getLsbD (prefixEnd keys)
        · rw [same, Function.update_self, Function.update_self]
          exact outcome.find_eq other aligned
        · have different : other ≠ changed := fun equal => same (by rw [equal])
          rw [Function.update_of_ne same, Function.update_of_ne same,
            if_neg different]
      · have counted := outcome.nullCount_eq
        revert counted
        cases changed.getLsbD (prefixEnd keys) <;> intro counted <;>
          simp [nullCount, counted]

theorem graft_outcome {tree : Trie} {pkey x key value newNode witness : Word}
    {top : Nat} (split : SplitAt x key pkey) (keyAligned : lowByte key = 0)
    (pkeyAligned : lowByte pkey = 0) (isValue : IsValue value)
    (low : bsr x < top) (agree : AgreeFrom top witness key)
    (valid : Valid tree (bsr x) pkey)
    (sameFind : ∀ other, tree.find other pkey = tree.find other witness) :
    Outcome tree witness (graft tree pkey x key value newNode) witness top key
      (some value) where
  valid := graft_valid split keyAligned pkeyAligned isValue low agree valid
  find_eq other _ := by
    rw [graft_find split keyAligned pkeyAligned valid, sameFind]
  nullCount_eq := by
    unfold graft
    cases key.getLsbD (bsr x) <;> simp [nullCount]

theorem insert_null_outcome {key value newNode stale witness : Word} {top : Nat}
    (aligned : lowByte key = 0) (isValue : IsValue value)
    (agree : AgreeFrom top witness key) :
    Outcome .null witness (insert key value newNode stale .null witness) witness
      top key (some value) where
  valid := .bottom aligned agree isValue rfl rfl
  find_eq other otherAligned := by
    have aligned' : lowByte ((fun side => if side then stale else key) false) = 0 :=
      aligned
    rw [insert, find_bottom aligned' otherAligned]
    simp only [Bool.false_eq_true, if_false, find, clearLowByte_eq_self aligned,
      eq_comm]
  nullCount_eq := rfl

/-- `ptrie_insert` adds exactly the new key. -/
theorem insert_outcome {tree : Trie} {key value newNode stale : Word} :
    ∀ {top : Nat} {witness : Word}, Valid tree top witness → 8 ≤ top →
      AgreeFrom top witness key → lowByte key = 0 → IsValue value →
      tree.find key witness = none →
      Outcome tree witness (insert key value newNode stale tree witness) witness
        top key (some value) := by
  induction tree with
  | null =>
      intro top witness _ _ agree aligned isValue _
      exact insert_null_outcome aligned isValue agree
  | leaf old =>
      intro top witness valid byte agree aligned isValue absent
      have different : key ^^^ clearLowByte witness ≠ 0 := by
        intro zero
        have equal : clearLowByte witness = key := (BitVec.xor_eq_zero_iff.mp zero).symm
        simp [find, equal] at absent
      have split := splitAt_xor aligned (lowByte_clearLowByte witness) different
      have low : bsr (key ^^^ clearLowByte witness) < top :=
        split.lt_of_agree
          (agree.symm.trans (clearLowByte_agreeFrom witness byte).symm)
      have isOld : IsValue old := by
        cases valid with
        | leaf isOld => exact isOld
      exact graft_outcome split aligned (lowByte_clearLowByte witness) isValue low
        agree (.leaf isOld)
        fun other => find_congr_of_clearLowByte_eq _ (clearLowByte_clearLowByte _) _
  | node address keys children induction =>
      intro top witness valid byte agree aligned isValue absent
      rw [insert]
      by_cases inside : AgreeFrom (prefixEnd keys + 1) key (keys false)
      · rw [if_pos ((xor_and_above_eq_zero_iff _ _ _).mpr inside)]
        cases valid with
        | @bottom _ _ _ _ _ old keyAligned _ _ left right =>
            exfalso
            have equal : key = keys false :=
              eq_of_agreeFrom_of_aligned aligned keyAligned
                (inside.mono (by rw [prefixEnd_eq_zero keyAligned]; omega))
            subst equal
            rw [find_bottom aligned aligned, left] at absent
            simp [find, clearLowByte_eq_self aligned] at absent
        | inner eight below keyAgree sidesAgree bits childrenValid =>
            have branchAgree : AgreeFrom (prefixEnd keys)
                (keys (key.getLsbD (prefixEnd keys))) key := by
              intro index above
              rcases Nat.lt_or_eq_of_le above with higher | equal
              · have sides : AgreeFrom (prefixEnd keys + 1) (keys false)
                    (keys (key.getLsbD (prefixEnd keys))) := by
                  cases key.getLsbD (prefixEnd keys) with
                  | false => exact .refl _ _
                  | true => exact sidesAgree
                exact (sides.symm.trans inside.symm) index higher
              · subst equal
                exact bits _
            have child := induction _ (childrenValid _) eight branchAgree aligned
              isValue absent
            have result := Outcome.node
              (@Valid.inner address _ _ _ _ eight below keyAgree sidesAgree bits
                childrenValid)
              eight below (.refl _ _) rfl child
            rw [Function.update_eq_self] at result
            exact result
      · rw [if_neg fun zero => inside ((xor_and_above_eq_zero_iff _ _ _).mp zero)]
        have keyAgree : AgreeFrom top witness (keys false) := by
          cases valid with
          | bottom _ keyAgree _ _ _ => exact keyAgree
          | inner _ _ keyAgree _ _ _ => exact keyAgree
        have split : SplitAt (key ^^^ keys false) key (clearLowByte (keys false)) ∧
            (8 ≤ prefixEnd keys → prefixEnd keys < bsr (key ^^^ keys false)) := by
          cases valid with
          | bottom keyAligned _ _ _ _ =>
              have ends := prefixEnd_eq_zero keyAligned
              have different : key ^^^ keys false ≠ 0 := by
                intro zero
                apply inside
                rw [BitVec.xor_eq_zero_iff.mp zero]
                exact .refl _ _
              rw [clearLowByte_eq_self keyAligned]
              exact ⟨splitAt_xor aligned keyAligned different, fun _ => by omega⟩
          | inner eight _ _ _ _ _ =>
              have split := splitAt_xor_clearLowByte (by omega) inside
              exact ⟨split.1, fun _ => split.2⟩
        have clearAgree : AgreeFrom (bsr (key ^^^ keys false))
            (clearLowByte (keys false)) (keys false) :=
          clearLowByte_agreeFrom _ split.1.byte
        have low : bsr (key ^^^ keys false) < top :=
          split.1.lt_of_agree ((agree.symm.trans keyAgree).trans
            (clearLowByte_agreeFrom _ byte).symm)
        have hung : Valid (.node address keys children) (bsr (key ^^^ keys false))
            (clearLowByte (keys false)) := by
          cases valid with
          | bottom keyAligned _ isOld left right =>
              exact .bottom keyAligned clearAgree isOld left right
          | inner eight _ _ sidesAgree bits childrenValid =>
              exact .inner eight (split.2 eight) clearAgree sidesAgree bits
                childrenValid
        exact graft_outcome split.1 aligned (lowByte_clearLowByte _) isValue low
          agree hung fun _ => rfl

/-! ## Removal -/

theorem lowByte_liftedKey (sibling : Trie) (siblingKey witness : Word) :
    lowByte (liftedKey sibling siblingKey witness) = lowByte witness := by
  cases sibling with
  | leaf _ => exact lowByte_clear_or_low siblingKey witness
  | null => rfl
  | node _ _ _ => rfl

theorem liftedKey_agreeFrom {sibling : Trie} {siblingKey witness : Word}
    (agree : AgreeFrom top witness siblingKey) (byte : 8 ≤ top) :
    AgreeFrom top (liftedKey sibling siblingKey witness) siblingKey := by
  cases sibling with
  | leaf _ => exact (clear_or_low_agreeFrom siblingKey witness).mono byte
  | null => exact agree
  | node _ _ _ => exact agree

/-- In its new place the sibling is found under the same keys. -/
theorem find_liftedKey (sibling : Trie) (siblingKey witness key : Word) :
    sibling.find key (liftedKey sibling siblingKey witness) =
      sibling.find key siblingKey := by
  cases sibling with
  | leaf value =>
      exact find_congr_of_clearLowByte_eq (.leaf value)
        (clearLowByte_eq_of_agreeFrom (clear_or_low_agreeFrom siblingKey witness)) key
  | null => rfl
  | node _ _ _ => rfl

/-- A valid node's children, seen from the bit that an aligned key takes. -/
theorem Valid.sibling {address key witness : Word} {keys : Bool → Word}
    {children : Bool → Trie} {top : Nat} {branch : Bool}
    (valid : Valid (.node address keys children) top witness) (byte : 8 ≤ top)
    (keyAligned : lowByte key = 0) (taken : key.getLsbD (prefixEnd keys) = branch) :
    Valid (children (!branch)) top
        (liftedKey (children (!branch)) (keys (!branch)) witness) ∧
      AgreeFrom top witness
        (liftedKey (children (!branch)) (keys (!branch)) witness) ∧
      (∀ other, lowByte other = 0 →
        other.getLsbD (prefixEnd keys) = branch →
          (children (!branch)).find other (keys (!branch)) = none) := by
  cases valid with
  | bottom aligned agree _ left right =>
      have low : branch = false := by
        rw [← taken, prefixEnd_eq_zero aligned]
        exact getLsbD_of_lowByte_eq_zero keyAligned (by omega)
      subst low
      rw [Bool.not_false, right]
      exact ⟨.null, .refl _ _, fun _ _ _ => rfl⟩
  | inner eight below agree sidesAgree bits childrenValid =>
      have sides : AgreeFrom (prefixEnd keys + 1) (keys false) (keys (!branch)) := by
        cases branch with
        | false => exact sidesAgree
        | true => exact .refl _ _
      have siblingAgree : AgreeFrom top witness (keys (!branch)) :=
        agree.trans (sides.mono below)
      have lifted := @liftedKey_agreeFrom _ (children (!branch)) _ _
        siblingAgree byte
      refine ⟨(childrenValid (!branch)).weaken below.le lifted,
        siblingAgree.trans lifted.symm, ?_⟩
      intro other _ otherTaken
      apply find_eq_none_of_bit (childrenValid (!branch)) eight
      rw [otherTaken, bits]
      cases branch <;> simp

/-- `ptrie_remove` takes out exactly the present key. -/
theorem remove_outcome {tree : Trie} {key : Word} (aligned : lowByte key = 0) :
    ∀ {top : Nat} {witness value : Word}, Valid tree top witness → 8 ≤ top →
      (∀ old, tree ≠ .leaf old) → tree.find key witness = some value →
      ∃ after afterKey removed,
        tree.remove key witness = some (after, afterKey, value, removed) ∧
        Outcome tree witness after afterKey top key none ∧
        AgreeFrom top witness afterKey ∧ lowByte afterKey = lowByte witness := by
  induction tree with
  | null =>
      intro top witness value _ _ _ found
      cases found
  | leaf old =>
      intro top witness value _ _ notLeaf _
      exact absurd rfl (notLeaf old)
  | node address keys children induction =>
      intro top witness value valid byte _ found
      rw [remove]
      rw [find] at found
      generalize taken : key.getLsbD (prefixEnd keys) = branch at found ⊢
      cases child : children branch with
      | null => rw [child] at found; cases found
      | leaf old =>
          rw [child] at found
          simp only [find, Option.ite_none_right_eq_some, Option.some.injEq] at found
          obtain ⟨equal, rfl⟩ := found
          obtain ⟨siblingValid, siblingAgree, siblingAbsent⟩ :=
            valid.sibling byte aligned taken
          simp only [equal, if_true]
          refine ⟨_, _, _, rfl, ⟨siblingValid, ?_, ?_⟩, siblingAgree,
            lowByte_liftedKey _ _ _⟩
          · intro other otherAligned
            rw [find_liftedKey, find]
            by_cases same : other.getLsbD (prefixEnd keys) = branch
            · rw [siblingAbsent other otherAligned same, same, child]
              simp only [find, equal]
              split_ifs with isKey reversed <;> first | rfl | exact absurd reversed.symm isKey
            · have opposite : other.getLsbD (prefixEnd keys) = !branch := by
                revert same
                cases branch <;> simp
              have different : other ≠ key := fun isKey =>
                same (by rw [isKey, taken])
              rw [opposite, if_neg different]
          · rw [nullCount]
            cases branch <;> simp [child, nullCount]
      | node childAddress childKeys grandchildren =>
          cases valid with
          | bottom keyAligned _ _ left right =>
              cases branch <;> simp [left, right] at child
          | inner eight below agree sidesAgree bits childrenValid =>
              obtain ⟨after, afterKey, removed, result, outcome, keyAgree, lowSame⟩ :=
                induction branch (childrenValid branch) eight (by simp [child]) found
              rw [child] at result
              subst taken
              simp only [result, Option.bind_eq_bind, Option.bind_some]
              refine ⟨_, _, _, rfl, ?_, .refl _ _, rfl⟩
              exact Outcome.node
                (.inner eight below agree sidesAgree bits childrenValid) eight below
                keyAgree lowSame outcome

end Trie

end MallocSurvey.Ltalloc
