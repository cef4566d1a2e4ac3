import MallocSurvey.FcMalloc.BitIndex
import MallocSurvey.FcMalloc.Positions
import MallocSurvey.Library.Ascending

/-! # `bit_index::iterator`

The iterators of the source point to their index; here it is passed along. -/

namespace MallocSurvey.FcMalloc

/-- The members of an iterator; `pos` of the lowest level is `_bit`. -/
inductive Iterator : Nat → Type
  | leaf (bit : Nat) : Iterator 0
  | node {level : Nat} (pos subIdx : Nat) (subItr : Iterator level) : Iterator (level + 1)

namespace Iterator

def bit : {level : Nat} → Iterator level → Nat
  | 0, .leaf bit => bit
  | _ + 1, .node pos _ _ => pos

/-- `end` -/
def isEnd : {level : Nat} → Iterator level → Bool
  | 0, .leaf bit => bit = 64
  | level + 1, .node _ subIdx _ => subIndexCount level ≤ subIdx

end Iterator

/-- `next_set_bit` of `bit_index<64>`, with `_bit` before and after -/
def Word.nextSetBit (bits : BitVec 64) (bit : Nat) : Option Nat :=
  if bit + 1 = 64 then some 64
  else if bit + 1 < 64 then some (firstSetBit ((bits <<< (bit + 1)) >>> (bit + 1)))
  else none

namespace BitIndex

/-- `at` -/
def iteratorAt : {level : Nat} → BitIndex level → Nat → Option (Iterator level)
  | 0, .leaf _, bit => some (.leaf bit)
  | level + 1, .node _ subIndex, bit => do
      let subIdx := bit / 64 % 64
      let sub ← element subIndex subIdx
      let subItr ← sub.iteratorAt (bit % subIndexSize level)
      return .node bit subIdx subItr

/-- `operator*` -/
def deref : {level : Nat} → BitIndex level → Iterator level → Option Bool
  | 0, .leaf bits, .leaf bit => Word.get bits bit
  | _ + 1, .node _ subIndex, .node _ subIdx subItr => do
      let sub ← element subIndex subIdx
      sub.deref subItr

/-- The branch of `next_set_bit` that leaves a sub-index. -/
def leaveSubIndex {level : Nat} (baseIndex : BitVec 64) (subIndex : Fin 64 → BitIndex level)
    (subIdx : Nat) (subItr : Iterator level) : Option (Iterator (level + 1)) := do
  let subIdx ← Word.nextSetBit baseIndex subIdx
  if subIndexCount level ≤ subIdx then return .node (indexSize (level + 1)) subIdx subItr
  else
    let sub ← element subIndex subIdx
    let fb ← sub.firstSetBit
    let subItr ← sub.iteratorAt fb
    return .node (subIdx * subIndexSize level + subItr.bit) subIdx subItr

/-- `next_set_bit` -/
def nextSetBit : {level : Nat} → BitIndex level → Iterator level → Option (Iterator level)
  | 0, .leaf bits, .leaf bit => do
      let bit ← Word.nextSetBit bits bit
      return .leaf bit
  | level + 1, .node baseIndex subIndex, .node pos subIdx subItr =>
      if subIndexCount level ≤ subIdx then some (.node pos subIdx subItr)
      else do
        let sub ← element subIndex subIdx
        let subItr ← sub.nextSetBit subItr
        if subItr.isEnd then leaveSubIndex baseIndex subIndex subIdx subItr
        else return .node (subIdx * subIndexSize level + subItr.bit) subIdx subItr

/-- The bits of an iterator that is moved on until it is at its end. -/
def follow {level : Nat} (index : BitIndex level) : Nat → Iterator level → Option (List Nat)
  | 0, _ => none
  | fuel + 1, itr =>
      if itr.isEnd then some []
      else do
        let next ← index.nextSetBit itr
        let rest ← index.follow fuel next
        return itr.bit :: rest

/-- The bits that an iterator from some bit on visits: that bit, if it is set, and those
that `next_set_bit` leads to. -/
def iterate {level : Nat} (index : BitIndex level) (fuel bit : Nat) : Option (List Nat) := do
  let itr ← index.iteratorAt bit
  let isSet ← index.deref itr
  let next ← index.nextSetBit itr
  let rest ← index.follow fuel next
  return if isSet then itr.bit :: rest else rest

end BitIndex

end MallocSurvey.FcMalloc

/-! # What an iterator visits

The iterator of a bit reads at another place on the levels above the second, since each
of them takes the same digit of the bit for its sub-index. -/

namespace MallocSurvey.FcMalloc

open Library

/-- The place where the iterator of a bit reads. -/
def relocate : Nat → Nat → Nat
  | 0, bit => bit
  | level + 1, bit =>
      bit / 64 % 64 * indexSize level + relocate level (bit % indexSize level)

/-- The positions in one sub-index. -/
def part (Has : Nat → Prop) (size subIdx : Nat) : Nat → Prop := fun place =>
  place < size ∧ Has (subIdx * size + place)

def Least (Has : Nat → Prop) (first : Nat) : Prop := Has first ∧ ∀ place, Has place → first ≤ place

/-- From some place on an iterator visits just the positions above it: in each sub-index
that is entered, the iterator of the first position there reads at a place with no other
positions up to it. -/
def Onward : Nat → (Nat → Prop) → Nat → Prop
  | 0, _, _ => True
  | level + 1, Has, place =>
      Onward level (part Has (indexSize level) (place / indexSize level))
        (place % indexSize level) ∧
      ∀ subIdx, place / indexSize level < subIdx → subIdx < 64 → ∀ first,
        Least (part Has (indexSize level) subIdx) first →
        first ≤ relocate level first ∧
        (∀ other, part Has (indexSize level) subIdx other →
          other ≤ first ∨ relocate level first < other) ∧
        Onward level (part Has (indexSize level) subIdx) (relocate level first)

theorem relocate_lt {level bit : Nat} (inRange : bit < indexSize level) :
    relocate level bit < indexSize level := by
  induction level generalizing bit with
  | zero => exact inRange
  | succ level induction =>
      exact join_lt (Nat.mod_lt _ (by decide)) (induction (mod_lt_size level bit))

/-! ## Words -/

theorem Word.nextSetBit_spec (bits : BitVec 64) {bit : Nat} (inRange : bit < 64) :
    ∃ next, Word.nextSetBit bits bit = some next ∧
      (next = 64 ∧ (∀ pos, bits.getMsbD pos = true → pos ≤ bit) ∨
        bits.getMsbD next = true ∧ bit < next ∧
          ∀ pos, bits.getMsbD pos = true → bit < pos → next ≤ pos) := by
  unfold Word.nextSetBit
  by_cases last : bit + 1 = 64
  · rw [if_pos last]
    refine ⟨64, rfl, .inl ⟨rfl, fun pos isSet => ?_⟩⟩
    have below := Word.lt_of_getMsbD isSet
    omega
  · rw [if_neg last, if_pos (by omega)]
    have kept : ∀ pos, ((bits <<< (bit + 1)) >>> (bit + 1)).getMsbD pos = true ↔
        bit < pos ∧ bits.getMsbD pos = true := by
      intro pos
      rw [BitVec.getMsbD_ushiftRight, BitVec.getMsbD_shiftLeft]
      by_cases before : pos < bit + 1
      · simp [before]
        omega
      · have below : pos - (bit + 1) + (bit + 1) = pos := by omega
        rw [below]
        constructor
        · intro isSet
          rw [Bool.and_eq_true, Bool.and_eq_true] at isSet
          exact ⟨by omega, isSet.2.2⟩
        · intro isSet
          have inWord := Word.lt_of_getMsbD isSet.2
          simp [inWord, before, isSet.2]
    refine ⟨_, rfl, ?_⟩
    rcases Word.firstSetBit_spec ((bits <<< (bit + 1)) >>> (bit + 1)) with
      ⟨isFull, none_set⟩ | ⟨isSet, least⟩
    · refine .inl ⟨isFull, fun pos isSet => ?_⟩
      by_contra after
      have impossible := (kept pos).mpr ⟨Nat.lt_of_not_le after, isSet⟩
      rw [none_set] at impossible
      cases impossible
    · have isNext := (kept _).mp isSet
      exact .inr ⟨isNext.2, isNext.1, fun pos isSet after => least pos ((kept pos).mpr ⟨after, isSet⟩)⟩

/-! ## Iterators -/

/-- The place where an iterator reads. -/
def Located : {level : Nat} → Iterator level → Nat → Prop
  | 0, .leaf bit, place => bit = place ∧ place < 64
  | level + 1, .node _ subIdx subItr, place =>
      subIdx < 64 ∧ subIdx = place / indexSize level ∧ Located subItr (place % indexSize level)

/-- Moving on from `step` visits some positions. -/
def Yields {level : Nat} (index : BitIndex level) (step : Option (Iterator level))
    (visited : List Nat) : Prop :=
  ∃ next fuel, step = some next ∧ index.follow fuel next = some visited

namespace BitIndex

theorem isEnd_node {level : Nat} (pos subIdx : Nat) (subItr : Iterator level) :
    (Iterator.node pos subIdx subItr).isEnd = decide (64 ≤ subIdx) := by
  rw [Iterator.isEnd, subIndexCount_eq]

theorem yields_end {level : Nat} {index : BitIndex level} {itr : Iterator level}
    (isEnd : itr.isEnd = true) : Yields index (some itr) [] :=
  ⟨itr, 1, rfl, if_pos isEnd⟩

theorem yields_visit {level : Nat} {index : BitIndex level} {itr : Iterator level}
    {rest : List Nat} (notEnd : itr.isEnd = false) (yields : Yields index (index.nextSetBit itr) rest) :
    Yields index (some itr) (itr.bit :: rest) := by
  obtain ⟨next, fuel, stepped, followed⟩ := yields
  refine ⟨itr, fuel + 1, rfl, ?_⟩
  unfold follow
  rw [notEnd, if_neg Bool.false_ne_true, stepped]
  change (index.follow fuel next).bind _ = _
  rw [followed]
  rfl

/-- The first turn of an iteration. -/
theorem yields_cases {level : Nat} {index : BitIndex level} {step : Option (Iterator level)}
    {visited : List Nat} (yields : Yields index step visited) :
    ∃ itr, step = some itr ∧ (itr.isEnd = true ∧ visited = [] ∨
      itr.isEnd = false ∧ ∃ rest, visited = itr.bit :: rest ∧
        Yields index (index.nextSetBit itr) rest) := by
  obtain ⟨itr, fuel, isStep, followed⟩ := yields
  refine ⟨itr, isStep, ?_⟩
  cases fuel with
  | zero => cases followed
  | succ fuel =>
      unfold follow at followed
      cases isEnd : itr.isEnd with
      | true =>
          rw [isEnd, if_pos rfl] at followed
          exact .inl ⟨rfl, (Option.some.inj followed).symm⟩
      | false =>
          rw [isEnd, if_neg Bool.false_ne_true] at followed
          cases stepped : index.nextSetBit itr with
          | none => simp [stepped] at followed
          | some next =>
              cases rested : index.follow fuel next with
              | none => simp [stepped, rested] at followed
              | some rest =>
                  simp only [stepped, rested, Option.bind_eq_bind, Option.bind_some, pure,
                    Option.some.injEq] at followed
                  exact .inr ⟨rfl, rest, followed.symm, next, fuel, rfl, rested⟩

/-- More fuel changes nothing. -/
theorem follow_mono {level : Nat} {index : BitIndex level} {visited : List Nat} {fuel : Nat} :
    ∀ {itr : Iterator level}, index.follow fuel itr = some visited →
      index.follow (fuel + 1) itr = some visited := by
  induction fuel generalizing visited with
  | zero =>
      intro itr followed
      cases followed
  | succ fuel induction =>
      intro itr followed
      unfold follow at followed ⊢
      by_cases isEnd : itr.isEnd
      · rw [if_pos isEnd] at followed ⊢
        exact followed
      · rw [if_neg isEnd] at followed ⊢
        cases stepped : index.nextSetBit itr with
        | none => simp [stepped] at followed
        | some next =>
            cases rested : index.follow fuel next with
            | none => simp [stepped, rested] at followed
            | some rest =>
                rw [stepped] at followed
                simp only [Option.bind_eq_bind, Option.bind_some, rested] at followed ⊢
                rw [induction rested]
                exact followed

theorem follow_unique {level : Nat} {index : BitIndex level} {left right : List Nat}
    {fuel other : Nat} {itr : Iterator level} (isLeft : index.follow fuel itr = some left)
    (isRight : index.follow other itr = some right) : left = right := by
  have more : ∀ {visited : List Nat} {fuel : Nat} (extra : Nat),
      index.follow fuel itr = some visited → index.follow (fuel + extra) itr = some visited := by
    intro visited fuel extra followed
    induction extra with
    | zero => exact followed
    | succ extra induction => exact follow_mono induction
  have atLeft := more other isLeft
  rw [Nat.add_comm, more fuel isRight] at atLeft
  exact (Option.some.inj atLeft).symm

/-- The iterator of a bit. -/
theorem iteratorAt_spec {level : Nat} (index : BitIndex level) {bit : Nat}
    (inRange : bit < indexSize level) :
    ∃ itr, index.iteratorAt bit = some itr ∧ Located itr (relocate level bit) ∧ itr.bit = bit ∧
      itr.isEnd = false := by
  induction index generalizing bit with
  | leaf bits =>
      have small : bit < 64 := inRange
      refine ⟨.leaf bit, rfl, ⟨rfl, small⟩, rfl, ?_⟩
      exact decide_eq_false (by omega)
  | @node level baseIndex subIndex induction =>
      let subIdx : Fin 64 := ⟨bit / 64 % 64, Nat.mod_lt _ (by decide)⟩
      obtain ⟨subItr, made, located, _⟩ := induction subIdx (mod_lt_size level bit)
      obtain ⟨quotient, remainder⟩ := @split_eq level subIdx _ (relocate_lt (mod_lt_size level bit))
      refine ⟨.node bit subIdx subItr, ?_, ⟨subIdx.isLt, ?_, ?_⟩, rfl, ?_⟩
      · rw [iteratorAt, subIndexSize_eq]
        change (element subIndex subIdx).bind _ = _
        rw [element_eq, Option.bind_some, made]
        rfl
      · exact quotient.symm
      · change Located subItr ((subIdx * indexSize level + _) % indexSize level)
        rw [remainder]
        exact located
      · rw [isEnd_node]
        exact decide_eq_false (Nat.not_le_of_lt subIdx.isLt)

theorem deref_spec {level : Nat} (index : BitIndex level) {itr : Iterator level} {place : Nat}
    (located : Located itr place) :
    ∃ isSet, index.deref itr = some isSet ∧ (isSet = true ↔ index.Contains place) := by
  induction index generalizing place with
  | leaf bits =>
      cases itr with
      | leaf bit =>
          obtain ⟨rfl, small⟩ := located
          exact ⟨_, Word.get_eq bits small, Iff.rfl⟩
  | @node level baseIndex subIndex induction =>
      cases itr with
      | node pos subIdx subItr =>
          obtain ⟨small, isSub, located⟩ := located
          obtain ⟨isSet, result, iff⟩ := induction ⟨subIdx, small⟩ located
          refine ⟨isSet, ?_, iff.trans ?_⟩
          · unfold deref
            change (element subIndex (⟨subIdx, small⟩ : Fin 64)).bind _ = _
            rw [element_eq]
            exact result
          · rw [contains_node]
            constructor
            · exact fun contains => ⟨⟨subIdx, small⟩, isSub, contains⟩
            · rintro ⟨other, same, contains⟩
              have sameSub : other = ⟨subIdx, small⟩ := Fin.ext (same.trans isSub.symm)
              rwa [sameSub] at contains

end BitIndex

end MallocSurvey.FcMalloc
