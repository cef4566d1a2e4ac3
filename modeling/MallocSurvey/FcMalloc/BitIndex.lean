import MallocSurvey.Library.Bits
import Mathlib.Data.Finset.Insert
import Mathlib.Data.Finset.Erase

/-! # `bit_index` of `fc_malloc/bit_index.hpp`

`BitIndex level` is `bit_index<64^(level + 1)>`; position 0 is the highest bit of a word.
A failed assertion, an index outside `_sub_index` and a shift by more than a word are
`none`. -/

namespace MallocSurvey.FcMalloc

open Library

inductive BitIndex : Nat → Type
  | leaf (bits : BitVec 64) : BitIndex 0
  | node {level : Nat} (baseIndex : BitVec 64) (subIndex : Fin 64 → BitIndex level) :
      BitIndex (level + 1)

/-- `index_size` -/
def indexSize (level : Nat) : Nat := 64 ^ (level + 1)

/-- `sub_index_size` of the level above -/
def subIndexSize (level : Nat) : Nat := (indexSize (level + 1) + 63) / 64

/-- `sub_index_count` of the level above -/
def subIndexCount (level : Nat) : Nat := indexSize (level + 1) / subIndexSize level

/-! ## `bit_index<64>` -/

/-- `LZERO`, for a word that is not zero -/
def lzero (bits : BitVec 64) : Nat := 63 - bsr bits

namespace Word

def firstSetBit (bits : BitVec 64) : Nat := if bits = 0 then 64 else lzero bits

/-- `1ll<<(63-pos)` -/
def mask (pos : Nat) : BitVec 64 := 1#64 <<< (63 - pos)

def get (bits : BitVec 64) (pos : Nat) : Option Bool :=
  if pos < 64 then some (decide (bits &&& mask pos ≠ 0)) else none

def set (bits : BitVec 64) (pos : Nat) : Option (BitVec 64) :=
  if pos < 64 then some (bits ||| mask pos) else none

def clear (bits : BitVec 64) (pos : Nat) : Option (Bool × BitVec 64) :=
  if pos < 64 then
    let cleared := bits &&& ~~~mask pos
    some (decide (cleared = 0), cleared)
  else none

end Word

/-! ## `bit_index<Size>` -/

/-- `_sub_index[sub_idx]` -/
def element {level : Nat} (subIndex : Fin 64 → BitIndex level) (subIdx : Nat) :
    Option (BitIndex level) :=
  if inRange : subIdx < 64 then some (subIndex ⟨subIdx, inRange⟩) else none

/-- The array after a change of `_sub_index[sub_idx]`. -/
def setElement {level : Nat} (subIndex : Fin 64 → BitIndex level) (subIdx : Nat)
    (changed : BitIndex level) : Fin 64 → BitIndex level :=
  fun other => if other.val = subIdx then changed else subIndex other

namespace BitIndex

def empty : (level : Nat) → BitIndex level
  | 0 => .leaf 0
  | level + 1 => .node 0 fun _ => empty level

def firstSetBit : {level : Nat} → BitIndex level → Option Nat
  | 0, .leaf bits => some (Word.firstSetBit bits)
  | level + 1, .node baseIndex subIndex => do
      let base := Word.firstSetBit baseIndex
      if subIndexCount level ≤ base then return indexSize (level + 1)
      else
        let sub ← element subIndex base
        let subidx ← sub.firstSetBit
        return base * subIndexSize level + subidx

def get : {level : Nat} → BitIndex level → Nat → Option Bool
  | 0, .leaf bits, pos => Word.get bits pos
  | level + 1, .node _ subIndex, bit =>
      if bit < indexSize (level + 1) then do
        let sub ← element subIndex (bit / subIndexSize level)
        sub.get (bit % subIndexSize level)
      else none

def set : {level : Nat} → BitIndex level → Nat → Option (BitIndex level)
  | 0, .leaf bits, pos => do
      let bits ← Word.set bits pos
      return .leaf bits
  | level + 1, .node baseIndex subIndex, bit =>
      if bit < indexSize (level + 1) then do
        let subIdx := bit / subIndexSize level
        let baseIndex ← Word.set baseIndex subIdx
        let sub ← element subIndex subIdx
        let sub ← sub.set (bit % subIndexSize level)
        return .node baseIndex (setElement subIndex subIdx sub)
      else none

def clear : {level : Nat} → BitIndex level → Nat → Option (Bool × BitIndex level)
  | 0, .leaf bits, pos => do
      let (isEmpty, bits) ← Word.clear bits pos
      return (isEmpty, .leaf bits)
  | level + 1, .node baseIndex subIndex, bit =>
      if bit < indexSize (level + 1) then do
        let subIdx := bit / subIndexSize level
        let sub ← element subIndex subIdx
        let (subEmpty, sub) ← sub.clear (bit % subIndexSize level)
        if subEmpty then
          let (isEmpty, baseIndex) ← Word.clear baseIndex subIdx
          return (isEmpty, .node baseIndex (setElement subIndex subIdx sub))
        else return (false, .node baseIndex (setElement subIndex subIdx sub))
      else none

end BitIndex

/-! ## Sequences of operations -/

inductive Operation
  | set (bit : Nat)
  | clear (bit : Nat)
  | get (bit : Nat)

def Operation.bit : Operation → Nat
  | .set bit | .clear bit | .get bit => bit

/-- An operation with what it returns, if anything. -/
def BitIndex.apply {level : Nat} (index : BitIndex level) :
    Operation → Option (Option Bool × BitIndex level)
  | .set bit => do
      let index ← index.set bit
      return (none, index)
  | .clear bit => do
      let (isEmpty, index) ← index.clear bit
      return (some isEmpty, index)
  | .get bit => do
      let isSet ← index.get bit
      return (some isSet, index)

def BitIndex.run {level : Nat} (index : BitIndex level) :
    List Operation → Option (List (Option Bool) × BitIndex level)
  | [] => some ([], index)
  | operation :: rest => do
      let (result, index) ← index.apply operation
      let (results, index) ← index.run rest
      return (result :: results, index)

/-! ## Sets of positions -/

/-- The same operation on a set. -/
def applySet (positions : Finset Nat) : Operation → Option Bool × Finset Nat
  | .set bit => (none, insert bit positions)
  | .clear bit => (some (decide (positions.erase bit = ∅)), positions.erase bit)
  | .get bit => (some (decide (bit ∈ positions)), positions)

def runSet (positions : Finset Nat) : List Operation → List (Option Bool) × Finset Nat
  | [] => ([], positions)
  | operation :: rest =>
      let (result, positions) := applySet positions operation
      let (results, positions) := runSet positions rest
      (result :: results, positions)

end MallocSurvey.FcMalloc
