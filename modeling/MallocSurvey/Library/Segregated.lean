import MallocSurvey.Library.DoublyLinked
import Mathlib.Data.BitVec

/-! # Doubly linked lists by class

Each class has a list of nodes, whose ends are marked by one null node. Two levels of
bits, a word for each first index, show which lists have a node. -/

namespace MallocSurvey.Library

/-! ## Lists -/

section Lists

variable {Class : Type} {null node : Nat} {next prev newNext newPrev : Nat → Nat}
  {head newHead : Class → Nat} {lists : Class → List Nat} {index : Class}

structure Segregated (null : Nat) (next prev : Nat → Nat) (head : Class → Nat)
    (lists : Class → List Nat) : Prop where
  head : ∀ index, head index = (lists index).headD null
  linked : ∀ index, DoublyLinked null next prev null (lists index)
  nodup : ∀ index, (lists index).Nodup
  unique : ∀ {index other node}, node ∈ lists index → node ∈ lists other → index = other
  noNull : ∀ index, null ∉ lists index

namespace Segregated

/-- The links of the listed nodes do not change. -/
theorem congr (segregated : Segregated null next prev head lists)
    (sameNext : ∀ index, ∀ node ∈ lists index, newNext node = next node)
    (samePrev : ∀ index, ∀ node ∈ lists index, newPrev node = prev node) :
    Segregated null newNext newPrev head lists :=
  { segregated with
    linked := fun index => (segregated.linked index).congr (sameNext index) (samePrev index) }

theorem head_eq_null_iff (segregated : Segregated null next prev head lists) :
    head index = null ↔ lists index = [] := by
  rw [segregated.head]
  cases isCons : lists index with
  | nil => simp
  | cons first rest =>
      have notNull := segregated.noNull index
      rw [isCons] at notNull
      refine iff_of_false ?_ (List.cons_ne_nil _ _)
      exact fun isNull => notNull (isNull ▸ List.mem_cons_self)

theorem head_mem (segregated : Segregated null next prev head lists)
    (nonempty : lists index ≠ []) : head index ∈ lists index := by
  rw [segregated.head]
  cases isCons : lists index with
  | nil => exact absurd isCons nonempty
  | cons first rest => exact List.mem_cons_self

theorem next_mem (segregated : Segregated null next prev head lists)
    (member : node ∈ lists index) : next node = null ∨ next node ∈ lists index :=
  (segregated.linked index).next_mem member

theorem prev_mem (segregated : Segregated null next prev head lists)
    (member : node ∈ lists index) : prev node = null ∨ prev node ∈ lists index :=
  (segregated.linked index).prev_mem member

theorem ne_null (segregated : Segregated null next prev head lists)
    (member : node ∈ lists index) : node ≠ null :=
  fun isNull => segregated.noNull index (isNull ▸ member)

variable [DecidableEq Class]

/-- A node is linked in front of the list of its class. -/
theorem push (segregated : Segregated null next prev head lists)
    (fresh : ∀ other, node ∉ lists other) (notNull : node ≠ null)
    (nodeNext : newNext node = head index) (nodePrev : newPrev node = null)
    (sameNext : ∀ other, ∀ member ∈ lists other, newNext member = next member)
    (samePrev : ∀ other, ∀ member ∈ lists other,
      newPrev member = if member = head index then node else prev member) :
    Segregated null newNext newPrev (Function.update head index node)
      (Function.update lists index (node :: lists index)) where
  head := by
    intro other
    by_cases same : other = index
    · rw [same, Function.update_self, Function.update_self, List.headD_cons]
    · rw [Function.update_of_ne same, Function.update_of_ne same]
      exact segregated.head other
  linked := by
    intro other
    by_cases same : other = index
    · subst same
      rw [Function.update_self]
      refine (segregated.linked other).push (segregated.nodup other) nodePrev ?_
        (sameNext other) ?_
      · rw [nodeNext, segregated.head]
      · intro member isMember
        rw [samePrev other member isMember, segregated.head]
    · rw [Function.update_of_ne same]
      refine (segregated.linked other).congr (sameNext other) ?_
      intro member isMember
      rw [samePrev other member isMember, if_neg]
      -- the head of the class is on its list only
      intro isHead
      by_cases isEmpty : lists index = []
      · rw [segregated.head_eq_null_iff.mpr isEmpty] at isHead
        exact segregated.ne_null isMember isHead
      · exact same (segregated.unique isMember (isHead ▸ segregated.head_mem isEmpty))
  nodup := by
    intro other
    by_cases same : other = index
    · rw [same, Function.update_self]
      exact List.nodup_cons.mpr ⟨fresh index, segregated.nodup index⟩
    · rw [Function.update_of_ne same]
      exact segregated.nodup other
  unique := by
    have member_of : ∀ {other member}, member ∈ Function.update lists index (node :: lists index) other →
        member = node ∧ other = index ∨ member ∈ lists other := by
      intro other member isMember
      by_cases same : other = index
      · rw [same, Function.update_self] at isMember
        rcases List.mem_cons.mp isMember with isNode | isMember
        · exact .inl ⟨isNode, same⟩
        · exact .inr (same ▸ isMember)
      · rw [Function.update_of_ne same] at isMember
        exact .inr isMember
    intro left right member inLeft inRight
    rcases member_of inLeft with ⟨isNode, isIndex⟩ | inLeft
    · rcases member_of inRight with ⟨_, alsoIndex⟩ | inRight
      · rw [isIndex, alsoIndex]
      · exact absurd (isNode ▸ inRight) (fresh right)
    · rcases member_of inRight with ⟨isNode, _⟩ | inRight
      · exact absurd (isNode ▸ inLeft) (fresh left)
      · exact segregated.unique inLeft inRight
  noNull := by
    intro other
    by_cases same : other = index
    · rw [same, Function.update_self]
      intro isMember
      rcases List.mem_cons.mp isMember with isNode | isMember
      · exact notNull isNode.symm
      · exact segregated.noNull index isMember
    · rw [Function.update_of_ne same]
      exact segregated.noNull other

/-- A node is unlinked from the list of its class. -/
theorem erase (segregated : Segregated null next prev head lists) (isNode : node ∈ lists index)
    (sameHead : newHead = if head index = node then Function.update head index (next node) else head)
    (nextLinks : ∀ other, ∀ member ∈ lists other, member ≠ node →
      newNext member = if member = prev node then next node else next member)
    (prevLinks : ∀ other, ∀ member ∈ lists other, member ≠ node →
      newPrev member = if member = next node then prev node else prev member) :
    Segregated null newNext newPrev newHead
      (Function.update lists index ((lists index).erase node)) := by
  have onlyHere : ∀ {other member}, other ≠ index → member ∈ lists other →
      member ≠ node ∧ member ≠ next node ∧ member ≠ prev node := by
    intro other member different isMember
    refine ⟨?_, ?_, ?_⟩
    · intro equal
      exact different (segregated.unique isMember (equal ▸ isNode))
    · intro equal
      rcases segregated.next_mem isNode with isNull | isNext
      · exact segregated.ne_null isMember (equal.trans isNull)
      · exact different (segregated.unique isMember (equal ▸ isNext))
    · intro equal
      rcases segregated.prev_mem isNode with isNull | isPrev
      · exact segregated.ne_null isMember (equal.trans isNull)
      · exact different (segregated.unique isMember (equal ▸ isPrev))
  have member_of : ∀ {other member},
      member ∈ Function.update lists index ((lists index).erase node) other →
        member ∈ lists other := by
    intro other member isMember
    by_cases same : other = index
    · rw [same, Function.update_self] at isMember
      exact same ▸ List.mem_of_mem_erase isMember
    · rwa [Function.update_of_ne same] at isMember
  constructor
  · intro other
    rw [sameHead]
    by_cases same : other = index
    · subst same
      rw [Function.update_self, (segregated.linked other).headD_erase isNode, ← segregated.head]
      split
      · rw [Function.update_self]
      · rfl
    · rw [Function.update_of_ne same, ← segregated.head]
      split
      · rw [Function.update_of_ne same]
      · rfl
  · intro other
    by_cases same : other = index
    · subst same
      rw [Function.update_self]
      exact (segregated.linked other).erase (segregated.nodup other) (segregated.noNull other)
        (segregated.noNull other) isNode (nextLinks other) (prevLinks other)
    · rw [Function.update_of_ne same]
      apply (segregated.linked other).congr
      · intro member isMember
        obtain ⟨notNode, _, notPrev⟩ := onlyHere same isMember
        rw [nextLinks other member isMember notNode, if_neg notPrev]
      · intro member isMember
        obtain ⟨notNode, notNext, _⟩ := onlyHere same isMember
        rw [prevLinks other member isMember notNode, if_neg notNext]
  · intro other
    by_cases same : other = index
    · rw [same, Function.update_self]
      exact (segregated.nodup index).erase _
    · rw [Function.update_of_ne same]
      exact segregated.nodup other
  · exact fun inLeft inRight => segregated.unique (member_of inLeft) (member_of inRight)
  · exact fun other isMember => segregated.noNull other (member_of isMember)

end Segregated

end Lists

/-! ## Bits -/

section Bits

/-- The lowest bit that is set. -/
def lowestBit (word : BitVec 32) : Option Nat :=
  (List.range 32).find? fun bit => word.getLsbD bit

def setBit (word : BitVec 32) (bit : Nat) : BitVec 32 := word ||| 1#32 <<< bit

def clearBit (word : BitVec 32) (bit : Nat) : BitVec 32 := word &&& ~~~(1#32 <<< bit)

/-- The bits from one on. -/
def bitsFrom (word : BitVec 32) (start : Nat) : BitVec 32 := word &&& BitVec.allOnes 32 <<< start

/-- The bits are set for the lists that have a node and for the words that have a bit. -/
structure Marked (fl : BitVec 32) (sl : Nat → BitVec 32) (lists : Nat × Nat → List Nat) :
    Prop where
  second : ∀ level part, (sl level).getLsbD part = true ↔ lists (level, part) ≠ []
  first : ∀ level < 32, fl.getLsbD level = true ↔ sl level ≠ 0#32

variable {word fl : BitVec 32} {sl : Nat → BitVec 32} {lists : Nat × Nat → List Nat}
  {bit other level part start : Nat} {nodes : List Nat}

theorem getLsbD_setBit (small : other < 32) :
    (setBit word bit).getLsbD other = (word.getLsbD other || decide (other = bit)) := by
  unfold setBit
  rw [BitVec.getLsbD_or, BitVec.getLsbD_shiftLeft, BitVec.getLsbD_one]
  by_cases same : other = bit
  · simp [same, same ▸ small]
  · have different : other < bit ∨ other - bit ≠ 0 := by omega
    rcases different with below | above
    · simp [below, same]
    · simp [above, same]

theorem getLsbD_clearBit (small : other < 32) :
    (clearBit word bit).getLsbD other = (word.getLsbD other && decide (other ≠ bit)) := by
  unfold clearBit
  rw [BitVec.getLsbD_and, BitVec.getLsbD_not, BitVec.getLsbD_shiftLeft, BitVec.getLsbD_one]
  by_cases same : other = bit
  · simp [same]
  · have different : other < bit ∨ other - bit ≠ 0 := by omega
    rcases different with below | above
    · simp [below, same, small]
    · simp [above, same, small]

theorem getLsbD_bitsFrom :
    (bitsFrom word start).getLsbD bit = (word.getLsbD bit && decide (start ≤ bit)) := by
  unfold bitsFrom
  rw [BitVec.getLsbD_and, BitVec.getLsbD_shiftLeft, BitVec.getLsbD_allOnes]
  by_cases isSet : word.getLsbD bit = true
  · have small := BitVec.lt_of_getLsbD isSet
    by_cases above : start ≤ bit
    · have notBelow : ¬ bit < start := by omega
      have inWord : bit - start < 32 := by omega
      simp [isSet, small, above, notBelow, inWord]
    · have below : bit < start := by omega
      simp [above, below]
  · simp [isSet]

theorem ne_zero_of_bit (isSet : word.getLsbD bit = true) : word ≠ 0#32 := by
  intro isZero
  rw [isZero, BitVec.getLsbD_zero] at isSet
  cases isSet

theorem word_eq_zero_iff : word = 0#32 ↔ ∀ bit, word.getLsbD bit = false := by
  constructor
  · intro isZero bit
    rw [isZero, BitVec.getLsbD_zero]
  · intro noBit
    apply BitVec.eq_of_getLsbD_eq
    intro bit _
    rw [noBit, BitVec.getLsbD_zero]

theorem lowestBit_set (found : lowestBit word = some bit) : word.getLsbD bit = true :=
  List.find?_some found

theorem lowestBit_eq_none_iff : lowestBit word = none ↔ word = 0#32 := by
  rw [word_eq_zero_iff, lowestBit, List.find?_eq_none]
  constructor
  · intro noBit bit
    by_cases small : bit < 32
    · simpa using noBit bit (List.mem_range.mpr small)
    · exact BitVec.getLsbD_of_ge _ _ (Nat.le_of_not_lt small)
  · intro noBit bit _
    simp [noBit bit]

theorem lowestBit_isSome (nonzero : word ≠ 0#32) : ∃ bit, lowestBit word = some bit :=
  Option.ne_none_iff_exists'.mp fun isNone => nonzero (lowestBit_eq_none_iff.mp isNone)

namespace Marked

variable (marked : Marked fl sl lists)

include marked

/-- A list whose class has its bits set already. -/
theorem update (sameEmpty : nodes = [] ↔ lists (level, part) = []) :
    Marked fl sl (Function.update lists (level, part) nodes) where
  second := by
    intro other otherPart
    rw [marked.second]
    by_cases same : (other, otherPart) = (level, part)
    · rw [same, Function.update_self]
      exact not_congr sameEmpty.symm
    · rw [Function.update_of_ne same]
  first := marked.first

theorem set (levelLt : level < 32) (partLt : part < 32) (nonempty : nodes ≠ []) :
    Marked (setBit fl level) (Function.update sl level (setBit (sl level) part))
      (Function.update lists (level, part) nodes) where
  second := by
    intro other otherPart
    by_cases sameLevel : other = level
    · subst sameLevel
      rw [Function.update_self]
      by_cases small : otherPart < 32
      · rw [getLsbD_setBit small]
        by_cases same : otherPart = part
        · subst same
          rw [Function.update_self]
          simpa using nonempty
        · have different : (other, otherPart) ≠ (other, part) := by simp [same]
          rw [Function.update_of_ne different, ← marked.second]
          simp [same]
      · have different : (other, otherPart) ≠ (other, part) := by
          rintro ⟨⟩
          exact small partLt
        rw [Function.update_of_ne different, ← marked.second,
          BitVec.getLsbD_of_ge _ _ (Nat.le_of_not_lt small),
          BitVec.getLsbD_of_ge _ _ (Nat.le_of_not_lt small)]
    · have different : (other, otherPart) ≠ (level, part) := by simp [sameLevel]
      rw [Function.update_of_ne sameLevel, Function.update_of_ne different, marked.second]
  first := by
    intro other small
    rw [getLsbD_setBit small]
    by_cases same : other = level
    · have isSet : (setBit (sl level) part).getLsbD part = true := by
        rw [getLsbD_setBit partLt]
        simp
      rw [same, Function.update_self]
      simp [ne_zero_of_bit isSet]
    · rw [Function.update_of_ne same, ← marked.first other small]
      simp [same]

/-- The list of a class has become empty. -/
theorem clear (partLt : part < 32) :
    Marked (if clearBit (sl level) part = 0#32 then clearBit fl level else fl)
      (Function.update sl level (clearBit (sl level) part))
      (Function.update lists (level, part) []) where
  second := by
    intro other otherPart
    by_cases sameLevel : other = level
    · subst sameLevel
      rw [Function.update_self]
      by_cases small : otherPart < 32
      · rw [getLsbD_clearBit small]
        by_cases same : otherPart = part
        · subst same
          rw [Function.update_self]
          simp
        · have different : (other, otherPart) ≠ (other, part) := by simp [same]
          rw [Function.update_of_ne different, ← marked.second]
          simp [same]
      · have different : (other, otherPart) ≠ (other, part) := by
          rintro ⟨⟩
          exact small partLt
        rw [Function.update_of_ne different, ← marked.second,
          BitVec.getLsbD_of_ge _ _ (Nat.le_of_not_lt small),
          BitVec.getLsbD_of_ge _ _ (Nat.le_of_not_lt small)]
    · have different : (other, otherPart) ≠ (level, part) := by simp [sameLevel]
      rw [Function.update_of_ne sameLevel, Function.update_of_ne different, marked.second]
  first := by
    intro other small
    by_cases same : other = level
    · rw [same, Function.update_self]
      split
      · next isZero =>
          rw [getLsbD_clearBit (same ▸ small)]
          simp [isZero]
      · next nonzero =>
          have before : sl level ≠ 0#32 := by
            intro isZero
            rw [isZero, clearBit, BitVec.zero_and] at nonzero
            exact nonzero rfl
          exact iff_of_true ((marked.first level (same ▸ small)).mpr before) nonzero
    · rw [Function.update_of_ne same, ← marked.first other small]
      split
      · rw [getLsbD_clearBit small]
        simp [same]
      · rfl

/-! ### The search -/

theorem found_in_level (found : lowestBit (bitsFrom (sl level) start) = some part) :
    start ≤ part ∧ part < 32 ∧ lists (level, part) ≠ [] := by
  have isSet := lowestBit_set found
  rw [getLsbD_bitsFrom, Bool.and_eq_true, decide_eq_true_eq] at isSet
  exact ⟨isSet.2, BitVec.lt_of_getLsbD isSet.1, (marked.second level part).mp isSet.1⟩

theorem found_level (found : lowestBit (bitsFrom fl start) = some level) :
    start ≤ level ∧ ∃ part, lowestBit (sl level) = some part ∧ part < 32 ∧
      lists (level, part) ≠ [] := by
  have isSet := lowestBit_set found
  rw [getLsbD_bitsFrom, Bool.and_eq_true, decide_eq_true_eq] at isSet
  have small := BitVec.lt_of_getLsbD isSet.1
  obtain ⟨part, isLowest⟩ := lowestBit_isSome ((marked.first level small).mp isSet.1)
  have partSet := lowestBit_set isLowest
  exact ⟨isSet.2, part, isLowest, BitVec.lt_of_getLsbD partSet, (marked.second level part).mp partSet⟩

/-- What is not found is not there. -/
theorem none_found (noPart : bitsFrom (sl level) part = 0#32)
    (noLevel : bitsFrom fl (level + 1) = 0#32) {index : Nat × Nat} (small : index.1 < 32)
    (serves : level < index.1 ∨ level = index.1 ∧ part ≤ index.2) : lists index = [] := by
  by_contra nonempty
  have isSet : (sl index.1).getLsbD index.2 = true := (marked.second _ _).mpr nonempty
  rcases serves with above | ⟨sameLevel, above⟩
  · have levelSet := (marked.first index.1 small).mpr (ne_zero_of_bit isSet)
    have noBit := word_eq_zero_iff.mp noLevel index.1
    rw [getLsbD_bitsFrom, levelSet] at noBit
    simp at noBit
    omega
  · have noBit := word_eq_zero_iff.mp noPart index.2
    rw [getLsbD_bitsFrom, sameLevel, isSet] at noBit
    simp at noBit
    omega

end Marked

end Bits

end MallocSurvey.Library
