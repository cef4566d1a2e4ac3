import MallocSurvey.FcMalloc.Visits
import MallocSurvey.FcMalloc.Refinement

/-! # Iterating visits the positions of an index -/

namespace MallocSurvey.FcMalloc

open Library

/-- The clause of `Onward` about one sub-index. -/
def Entered (level : Nat) (Has : Nat → Prop) (subIdx : Nat) : Prop :=
  ∀ first, Least (part Has (indexSize level) subIdx) first →
    first ≤ relocate level first ∧
    (∀ other, part Has (indexSize level) subIdx other →
      other ≤ first ∨ relocate level first < other) ∧
    Onward level (part Has (indexSize level) subIdx) (relocate level first)

theorem onward_succ {level place : Nat} {Has : Nat → Prop} :
    Onward (level + 1) Has place ↔
      Onward level (part Has (indexSize level) (place / indexSize level))
        (place % indexSize level) ∧
      ∀ subIdx, place / indexSize level < subIdx → subIdx < 64 → Entered level Has subIdx :=
  Iff.rfl

/-- What moving an iterator on from some place visits. -/
structure Visits {level : Nat} (index : BitIndex level) (itr : Iterator level) (place : Nat)
    (visited : List Nat) : Prop where
  yields : Yields index (index.nextSetBit itr) visited
  above : ∀ pos ∈ visited, index.Contains pos ∧ place < pos
  head : ∀ pos, index.Contains pos → place < pos →
    ∃ next, visited.head? = some next ∧ next ≤ pos
  exact : Enumerates (fun pos => index.Contains pos ∧ place < pos) visited ↔
    Onward level index.Contains place

/-- What is visited behind a sub-index. -/
structure Leaves {level : Nat} (baseIndex : BitVec 64) (subIndex : Fin 64 → BitIndex level)
    (subIdx : Nat) (visited : List Nat) : Prop where
  yields : ∀ subItr, Yields (.node baseIndex subIndex)
    (BitIndex.leaveSubIndex baseIndex subIndex subIdx subItr) visited
  above : ∀ pos ∈ visited, (BitIndex.node baseIndex subIndex).Contains pos ∧
    (subIdx + 1) * indexSize level ≤ pos
  head : ∀ pos, (BitIndex.node baseIndex subIndex).Contains pos →
    (subIdx + 1) * indexSize level ≤ pos → ∃ next, visited.head? = some next ∧ next ≤ pos
  exact : Enumerates (fun pos => (BitIndex.node baseIndex subIndex).Contains pos ∧
      (subIdx + 1) * indexSize level ≤ pos) visited ↔
    ∀ later, subIdx < later → later < 64 →
      Entered level (BitIndex.node baseIndex subIndex).Contains later

namespace BitIndex

/-! ## The lowest level -/

theorem visits_leaf (bits : BitVec 64) (left : Nat) :
    ∀ bit, bit < 64 → 64 - bit = left →
      ∃ visited, Visits (.leaf bits) (.leaf bit) bit visited := by
  induction left using Nat.strong_induction_on with
  | _ left induction =>
      intro bit inRange isLeft
      obtain ⟨next, stepped, spec⟩ := Word.nextSetBit_spec bits inRange
      have moved : (BitIndex.leaf bits).nextSetBit (.leaf bit) = some (.leaf next) := by
        rw [nextSetBit, stepped]
        rfl
      rcases spec with ⟨isFull, none_later⟩ | ⟨isSet, after, least⟩
      · refine ⟨[], ?_, ?_, ?_, ?_⟩
        · rw [moved]
          exact yields_end (decide_eq_true isFull)
        · intro pos member
          cases member
        · intro pos contains later
          exact absurd (none_later pos contains) (Nat.not_le_of_lt later)
        · refine iff_of_true (Enumerates.nil_iff.mpr ?_) trivial
          rintro pos ⟨contains, later⟩
          exact absurd (none_later pos contains) (Nat.not_le_of_lt later)
      · have small := Word.lt_of_getMsbD isSet
        obtain ⟨rest, visits⟩ := induction (64 - next) (by omega) next small rfl
        have exact := visits.exact.mpr trivial
        refine ⟨next :: rest, ?_, ?_, ?_, iff_of_true ⟨?_, ?_⟩ trivial⟩
        · rw [moved]
          exact yields_visit (decide_eq_false (by omega)) visits.yields
        · intro pos member
          rcases List.mem_cons.mp member with rfl | member
          · exact ⟨isSet, after⟩
          · have isLater := visits.above pos member
            exact ⟨isLater.1, Nat.lt_trans after isLater.2⟩
        · intro pos contains later
          exact ⟨next, rfl, least pos contains later⟩
        · exact List.pairwise_cons.mpr ⟨fun pos member => (visits.above pos member).2,
            exact.ascending⟩
        · intro pos
          rw [List.mem_cons, exact.mem_iff]
          constructor
          · rintro (rfl | ⟨contains, later⟩)
            · exact ⟨isSet, after⟩
            · exact ⟨contains, Nat.lt_trans after later⟩
          · rintro ⟨contains, later⟩
            rcases Nat.eq_or_lt_of_le (least pos contains later) with same | further
            · exact .inl same.symm
            · exact .inr ⟨contains, further⟩

/-! ## The levels above -/

section

variable {level : Nat} {baseIndex : BitVec 64} {subIndex : Fin 64 → BitIndex level}

theorem part_contains (subIdx : Fin 64) :
    part (BitIndex.node baseIndex subIndex).Contains (indexSize level) subIdx =
      (subIndex subIdx).Contains := by
  funext place
  apply propext
  constructor
  · rintro ⟨inRange, contains⟩
    exact (contains_join inRange).mp contains
  · intro contains
    exact ⟨contains.lt, (contains_join contains.lt).mpr contains⟩

/-- After the last position of a sub-index the iterator leaves it. -/
theorem yields_node {subIdx : Fin 64} {later : List Nat}
    (leaves : ∀ subItr, Yields (.node baseIndex subIndex)
      (leaveSubIndex baseIndex subIndex subIdx subItr) later) {visited : List Nat} :
    ∀ {pos : Nat} {subItr : Iterator level},
      Yields (subIndex subIdx) ((subIndex subIdx).nextSetBit subItr) visited →
      Yields (.node baseIndex subIndex)
        ((BitIndex.node baseIndex subIndex).nextSetBit (.node pos subIdx subItr))
        (visited.map (subIdx * indexSize level + ·) ++ later) := by
  induction visited with
  | nil =>
      intro pos subItr yields
      obtain ⟨next, stepped, ends⟩ := yields_cases yields
      have isEnd : next.isEnd = true := by
        rcases ends with ⟨isEnd, _⟩ | ⟨_, rest, impossible, _⟩
        · exact isEnd
        · cases impossible
      have moved : (BitIndex.node baseIndex subIndex).nextSetBit (.node pos subIdx subItr) =
          leaveSubIndex baseIndex subIndex subIdx next := by
        rw [nextSetBit, subIndexCount_eq, if_neg (Nat.not_le_of_lt subIdx.isLt), element_eq]
        change ((subIndex subIdx).nextSetBit subItr).bind _ = _
        rw [stepped, Option.bind_some, if_pos isEnd]
      rw [moved]
      exact leaves next
  | cons first rest induction =>
      intro pos subItr yields
      obtain ⟨next, stepped, ends⟩ := yields_cases yields
      rcases ends with ⟨_, impossible⟩ | ⟨notEnd, others, isList, restYields⟩
      · cases impossible
      · obtain ⟨rfl, rfl⟩ := List.cons.inj isList
        have moved : (BitIndex.node baseIndex subIndex).nextSetBit (.node pos subIdx subItr) =
            some (.node (subIdx * indexSize level + next.bit) subIdx next) := by
          rw [nextSetBit, subIndexCount_eq, if_neg (Nat.not_le_of_lt subIdx.isLt), element_eq]
          change ((subIndex subIdx).nextSetBit subItr).bind _ = _
          rw [stepped, Option.bind_some, notEnd, if_neg Bool.false_ne_true, subIndexSize_eq]
          rfl
        rw [moved]
        refine yields_visit ?_ (induction restYields)
        rw [isEnd_node]
        exact decide_eq_false (Nat.not_le_of_lt subIdx.isLt)

/-- The next sub-index that is not empty. -/
theorem leaveSubIndex_spec (summarised : (BitIndex.node baseIndex subIndex).Summarised)
    {subIdx : Nat} (inRange : subIdx < 64) :
    (∀ subItr, Yields (.node baseIndex subIndex)
        (leaveSubIndex baseIndex subIndex subIdx subItr) []) ∧
      (∀ later : Fin 64, subIdx < later → (subIndex later).IsEmpty) ∨
    ∃ (next : Fin 64) (first : Nat) (itr : Iterator level), subIdx < next ∧
      (∀ later : Fin 64, subIdx < later → later < next → (subIndex later).IsEmpty) ∧
      Least (subIndex next).Contains first ∧ Located itr (relocate level first) ∧
      ∀ subItr, leaveSubIndex baseIndex subIndex subIdx subItr =
        some (.node (next * indexSize level + first) next itr) := by
  obtain ⟨next, stepped, spec⟩ := Word.nextSetBit_spec baseIndex inRange
  rcases spec with ⟨isFull, none_later⟩ | ⟨isSet, after, least⟩
  · left
    constructor
    · intro subItr
      have left : leaveSubIndex baseIndex subIndex subIdx subItr =
          some (.node (indexSize (level + 1)) next subItr) := by
        unfold leaveSubIndex
        rw [stepped, subIndexCount_eq, isFull]
        rfl
      rw [left]
      apply yields_end
      rw [isEnd_node, isFull]
      rfl
    · intro later after
      by_contra notEmpty
      exact Nat.not_le_of_lt after (none_later later ((summarised later).2.mpr notEmpty))
  · right
    have small := Word.lt_of_getMsbD isSet
    let target : Fin 64 := ⟨next, small⟩
    have notEmpty := (summarised target).2.mp isSet
    obtain ⟨first, found, firstSpec⟩ := (subIndex target).firstSetBit_spec (summarised target).1
    rcases firstSpec with ⟨_, isEmpty⟩ | isLeast
    · exact absurd isEmpty notEmpty
    · obtain ⟨itr, made, located, isBit, _⟩ := (subIndex target).iteratorAt_spec isLeast.1.lt
      refine ⟨target, first, itr, after, ?_, isLeast, located, ?_⟩
      · intro later isLater before
        by_contra laterNotEmpty
        exact Nat.not_le_of_lt before
          (least later ((summarised later).2.mpr laterNotEmpty) isLater)
      · intro subItr
        unfold leaveSubIndex
        rw [stepped, subIndexCount_eq]
        change (if 64 ≤ next then _ else (element subIndex target).bind _) = _
        rw [if_neg (Nat.not_le_of_lt small), element_eq]
        change ((subIndex target).firstSetBit).bind _ = _
        rw [found]
        change ((subIndex target).iteratorAt first).bind _ = _
        rw [made]
        change some (Iterator.node (next * subIndexSize level + itr.bit) next itr) = _
        rw [isBit, subIndexSize_eq]

/-- The positions behind some sub-index, by the sub-index they are in. -/
theorem behind_cases {bound pos : Nat}
    (contains : (BitIndex.node baseIndex subIndex).Contains pos)
    (behind : bound * indexSize level ≤ pos) :
    ∃ (subIdx : Fin 64) (place : Nat), bound ≤ subIdx ∧ (subIndex subIdx).Contains place ∧
      pos = subIdx * indexSize level + place := by
  obtain ⟨subIdx, isSub, subContains⟩ := contains
  refine ⟨subIdx, _, ?_, subContains, ?_⟩
  · rw [isSub, Nat.le_div_iff_mul_le (indexSize_pos level)]
    exact behind
  · rw [isSub, Nat.mul_comm, Nat.div_add_mod]

theorem offset_le {left right : Nat} (below : left ≤ right) :
    left * indexSize level ≤ right * indexSize level :=
  Nat.mul_le_mul_right _ below

/-- The positions of one sub-index, in its own terms and in those of the index. -/
theorem enumerates_sub {subIdx : Fin 64} {visited : List Nat} {Above : Nat → Prop} :
    Enumerates (fun pos => (BitIndex.node baseIndex subIndex).Contains pos ∧
        (subIdx * indexSize level ≤ pos ∧ Above (pos - subIdx * indexSize level)) ∧
        pos < (subIdx + 1) * indexSize level)
      (visited.map (subIdx * indexSize level + ·)) ↔
    Enumerates (fun place => (subIndex subIdx).Contains place ∧ Above place) visited := by
  rw [Enumerates.map_add_iff fun pos has => has.2.1.1]
  apply Enumerates.congr
  intro place
  rw [Nat.add_sub_cancel_left, Nat.succ_mul]
  constructor
  · rintro ⟨contains, ⟨_, above⟩, below⟩
    exact ⟨(contains_join (by omega)).mp contains, above⟩
  · rintro ⟨contains, above⟩
    have small := contains.lt
    exact ⟨(contains_join small).mpr contains, ⟨Nat.le_add_right _ _, above⟩, by omega⟩

theorem entered_of_isEmpty {subIdx : Fin 64} (isEmpty : (subIndex subIdx).IsEmpty) :
    Entered level (BitIndex.node baseIndex subIndex).Contains subIdx := by
  intro first isFirst
  have inSub := isFirst.1
  rw [part_contains] at inSub
  exact absurd inSub (isEmpty first)

theorem entered_iff {subIdx : Fin 64} {first : Nat} (least : Least (subIndex subIdx).Contains first) :
    Entered level (BitIndex.node baseIndex subIndex).Contains subIdx ↔
      first ≤ relocate level first ∧
      (∀ other, (subIndex subIdx).Contains other →
        other ≤ first ∨ relocate level first < other) ∧
      Onward level (subIndex subIdx).Contains (relocate level first) := by
  unfold Entered
  rw [part_contains]
  constructor
  · exact fun entered => entered first least
  · intro clauses other isLeast
    rw [Nat.le_antisymm (isLeast.2 first least.1) (least.2 other isLeast.1)]
    exact clauses

theorem leaves_spec (summarised : (BitIndex.node baseIndex subIndex).Summarised)
    (subVisits : ∀ (subIdx : Fin 64) (itr : Iterator level) (place : Nat), Located itr place →
      ∃ visited, Visits (subIndex subIdx) itr place visited) (left : Nat) :
    ∀ subIdx, subIdx < 64 → 64 - subIdx = left →
      ∃ visited, Leaves baseIndex subIndex subIdx visited := by
  induction left using Nat.strong_induction_on with
  | _ left induction =>
      intro subIdx inRange isLeft
      rcases leaveSubIndex_spec summarised inRange with ⟨yields, none_later⟩ |
        ⟨next, first, itr, after, between, least, located, left⟩
      · have noneBehind : ∀ pos, (BitIndex.node baseIndex subIndex).Contains pos →
            ¬ (subIdx + 1) * indexSize level ≤ pos := by
          intro pos contains behind
          obtain ⟨later, place, isLater, subContains, _⟩ := behind_cases contains behind
          exact none_later later isLater place subContains
        refine ⟨[], yields, fun pos member => (by cases member), ?_, ?_⟩
        · intro pos contains behind
          exact absurd behind (noneBehind pos contains)
        · refine iff_of_true (Enumerates.nil_iff.mpr fun pos has => noneBehind pos has.1 has.2) ?_
          intro later isLater small first isFirst
          have inSub := isFirst.1
          rw [part_contains ⟨later, small⟩] at inSub
          exact absurd inSub (none_later ⟨later, small⟩ isLater first)
      · obtain ⟨rest, leaves⟩ := induction (64 - next) (by omega) next next.isLt rfl
        obtain ⟨visited, visits⟩ := subVisits next itr (relocate level first) located
        have firstSmall := least.1.lt
        have nextBound := @offset_le level (subIdx + 1) next after
        have afterBound : (next + 1) * indexSize level = next * indexSize level + indexSize level :=
          Nat.succ_mul _ _
        have inSub : ∀ pos ∈ (first :: visited).map (next * indexSize level + ·),
            (BitIndex.node baseIndex subIndex).Contains pos ∧
              next * indexSize level ≤ pos ∧ pos < (next + 1) * indexSize level := by
          intro pos member
          obtain ⟨place, isPlace, rfl⟩ := List.mem_map.mp member
          have subContains : (subIndex next).Contains place := by
            rcases List.mem_cons.mp isPlace with rfl | isPlace
            · exact least.1
            · exact (visits.above place isPlace).1
          have small := subContains.lt
          exact ⟨(contains_join small).mpr subContains, Nat.le_add_right _ _, by omega⟩
        refine ⟨(first :: visited).map (next * indexSize level + ·) ++ rest, ?_, ?_, ?_, ?_⟩
        · intro subItr
          rw [left subItr]
          refine yields_visit ?_ (yields_node leaves.yields visits.yields)
          rw [isEnd_node]
          exact decide_eq_false (Nat.not_le_of_lt next.isLt)
        · intro pos member
          rcases List.mem_append.mp member with inNext | inRest
          · obtain ⟨contains, above, _⟩ := inSub pos inNext
            exact ⟨contains, Nat.le_trans nextBound above⟩
          · obtain ⟨contains, above⟩ := leaves.above pos inRest
            exact ⟨contains, by omega⟩
        · intro pos contains behind
          refine ⟨next * indexSize level + first, rfl, ?_⟩
          obtain ⟨target, place, isLater, subContains, rfl⟩ := behind_cases contains behind
          by_cases before : target < next
          · exact absurd subContains (between target isLater before place)
          · rcases Nat.eq_or_lt_of_le (Nat.le_of_not_lt before) with same | further
            · have sameSub : target = next := Fin.ext same.symm
              rw [sameSub] at subContains ⊢
              exact Nat.add_le_add_left (least.2 place subContains) _
            · have bound := @offset_le level (next + 1) target further
              omega
        · rw [@Enumerates.append_iff _ _ _ ((next + 1) * indexSize level)
            (fun pos member => (inSub pos member).2.2) fun pos member => (leaves.above pos member).2]
          have inNext : Enumerates (fun pos => ((BitIndex.node baseIndex subIndex).Contains pos ∧
                (subIdx + 1) * indexSize level ≤ pos) ∧ pos < (next + 1) * indexSize level)
              ((first :: visited).map (next * indexSize level + ·)) ↔
              Entered level (BitIndex.node baseIndex subIndex).Contains next := by
            rw [entered_iff least, ← visits.exact, ← Enumerates.cons_iff least.1 least.2
              visits.above visits.head]
            have whole := @enumerates_sub level baseIndex subIndex next (first :: visited)
              fun _ => True
            simp only [and_true] at whole
            rw [← whole]
            apply Enumerates.congr
            intro pos
            constructor
            · rintro ⟨⟨contains, behind⟩, below⟩
              obtain ⟨target, place, isLater, subContains, rfl⟩ := behind_cases contains behind
              refine ⟨contains, ?_, below⟩
              by_contra outside
              have before : target < next := by
                by_contra notBefore
                have bound := @offset_le level next target (Nat.le_of_not_lt notBefore)
                omega
              exact between target isLater before place subContains
            · rintro ⟨contains, above, below⟩
              exact ⟨⟨contains, Nat.le_trans nextBound above⟩, below⟩
          have behindNext : Enumerates (fun pos =>
                ((BitIndex.node baseIndex subIndex).Contains pos ∧
                  (subIdx + 1) * indexSize level ≤ pos) ∧ (next + 1) * indexSize level ≤ pos) rest ↔
              ∀ later, next.val < later → later < 64 →
                Entered level (BitIndex.node baseIndex subIndex).Contains later := by
            rw [← leaves.exact]
            apply Enumerates.congr
            intro pos
            constructor
            · exact fun has => ⟨has.1.1, has.2⟩
            · exact fun has => ⟨⟨has.1, by omega⟩, has.2⟩
          rw [inNext, behindNext]
          constructor
          · rintro ⟨entered, others⟩ later isLater small
            rcases Nat.lt_trichotomy later next with before | same | further
            · exact @entered_of_isEmpty level baseIndex subIndex ⟨later, small⟩
                (between ⟨later, small⟩ isLater before)
            · exact same ▸ entered
            · exact others later further small
          · intro all
            exact ⟨all next after next.isLt, fun later further small =>
              all later (Nat.lt_trans after further) small⟩

/-- An iterator in an index of any level. -/
theorem visits_spec {level : Nat} (index : BitIndex level) (summarised : index.Summarised) :
    ∀ (itr : Iterator level) (place : Nat), Located itr place →
      ∃ visited, Visits index itr place visited := by
  induction index with
  | leaf bits =>
      intro itr place located
      cases itr with
      | leaf bit =>
          obtain ⟨rfl, small⟩ := located
          exact visits_leaf bits _ bit small rfl
  | @node level baseIndex subIndex induction =>
      intro itr place located
      cases itr with
      | node pos subIdx subItr =>
          obtain ⟨small, isSub, subLocated⟩ := located
          have subVisits := fun subIdx => induction subIdx (summarised subIdx).1
          obtain ⟨later, leaves⟩ := leaves_spec summarised subVisits _ subIdx small rfl
          obtain ⟨visited, visits⟩ := subVisits ⟨subIdx, small⟩ subItr _ subLocated
          have isPlace : subIdx * indexSize level + place % indexSize level = place := by
            rw [isSub, Nat.mul_comm, Nat.div_add_mod]
          have bound : (subIdx + 1) * indexSize level = subIdx * indexSize level + indexSize level :=
            Nat.succ_mul _ _
          have inPlace := mod_lt_size level place
          have inSub : ∀ pos ∈ visited.map (subIdx * indexSize level + ·),
              (BitIndex.node baseIndex subIndex).Contains pos ∧ place < pos ∧
                pos < (subIdx + 1) * indexSize level := by
            intro pos member
            obtain ⟨target, isTarget, rfl⟩ := List.mem_map.mp member
            obtain ⟨contains, above⟩ := visits.above target isTarget
            have inTarget := contains.lt
            exact ⟨(@contains_join level baseIndex subIndex ⟨subIdx, small⟩ target inTarget).mpr
              contains, by omega, by omega⟩
          refine ⟨visited.map (subIdx * indexSize level + ·) ++ later, ?_, ?_, ?_, ?_⟩
          · exact @yields_node level baseIndex subIndex ⟨subIdx, small⟩ later leaves.yields visited
              pos subItr visits.yields
          · intro target member
            rcases List.mem_append.mp member with isHere | isLater
            · exact ⟨(inSub target isHere).1, (inSub target isHere).2.1⟩
            · obtain ⟨contains, behind⟩ := leaves.above target isLater
              exact ⟨contains, by omega⟩
          · intro target contains above
            by_cases behind : (subIdx + 1) * indexSize level ≤ target
            · obtain ⟨next, isHead, below⟩ := leaves.head target contains behind
              cases visited with
              | nil => exact ⟨next, isHead, below⟩
              | cons first rest =>
                  have isFirst := inSub _ List.mem_cons_self
                  exact ⟨_, rfl, by omega⟩
            · obtain ⟨other, inOther, isOther, subContains, rfl⟩ :=
                @behind_cases level baseIndex subIndex subIdx target contains (by omega)
              have sameSub : other = ⟨subIdx, small⟩ := by
                apply Fin.ext
                by_contra different
                change ¬ other.val = subIdx at different
                have past := @offset_le level (subIdx + 1) other (by omega)
                omega
              rw [sameSub] at subContains above ⊢
              obtain ⟨next, isHead, below⟩ := visits.head inOther subContains (by
                dsimp only at above
                omega)
              cases visited with
              | nil => cases isHead
              | cons first rest =>
                  refine ⟨_, rfl, Nat.add_le_add_left ?_ _⟩
                  exact Option.some.inj isHead ▸ below
          · rw [@Enumerates.append_iff _ _ _ ((subIdx + 1) * indexSize level)
              (fun target member => (inSub target member).2.2)
              fun target member => (leaves.above target member).2]
            have isHere := @enumerates_sub level baseIndex subIndex ⟨subIdx, small⟩ visited
              (place % indexSize level < ·)
            rw [visits.exact] at isHere
            rw [onward_succ, ← isSub,
              @part_contains level baseIndex subIndex ⟨subIdx, small⟩, ← isHere, ← leaves.exact]
            apply and_congr
            · apply Enumerates.congr
              intro target
              dsimp only
              constructor
              · rintro ⟨⟨contains, above⟩, below⟩
                exact ⟨contains, by omega, below⟩
              · rintro ⟨contains, above, below⟩
                exact ⟨⟨contains, by omega⟩, below⟩
            · apply Enumerates.congr
              intro target
              constructor
              · rintro ⟨⟨contains, _⟩, behind⟩
                exact ⟨contains, behind⟩
              · rintro ⟨contains, behind⟩
                exact ⟨⟨contains, by omega⟩, behind⟩

end

end BitIndex

/-! ## Iterating from a bit -/

/-- The bit reads at its own place, or at one that is not set with the same positions
behind it. -/
def StartsRight (level : Nat) (Has : Nat → Prop) (bit : Nat) : Prop :=
  relocate level bit = bit ∨
    ¬ Has (relocate level bit) ∧ ∀ place, Has place → (bit ≤ place ↔ relocate level bit < place)

/-- Iterating from the bit ends and visits just the positions not below it, in ascending
order and once each. -/
def IteratesFrom {level : Nat} (index : BitIndex level) (bit : Nat) (Has : Nat → Prop) : Prop :=
  ∃ fuel visited, index.iterate fuel bit = some visited ∧
    Enumerates (fun place => Has place ∧ bit ≤ place) visited

/-- What an iteration visits, whether that is right or not. -/
theorem iterate_spec {level : Nat} {index : BitIndex level} (summarised : index.Summarised)
    {bit : Nat} (inRange : bit < indexSize level) :
    ∃ fuel itr visited, Visits index itr (relocate level bit) visited ∧
      (index.Contains (relocate level bit) ∧ index.iterate fuel bit = some (bit :: visited) ∨
        ¬ index.Contains (relocate level bit) ∧ index.iterate fuel bit = some visited) := by
  obtain ⟨itr, made, located, isBit, _⟩ := index.iteratorAt_spec inRange
  obtain ⟨isSet, read, iff⟩ := index.deref_spec located
  obtain ⟨visited, visits⟩ := index.visits_spec summarised itr _ located
  obtain ⟨next, fuel, stepped, followed⟩ := visits.yields
  have result : index.iterate fuel bit =
      some (if isSet then bit :: visited else visited) := by
    unfold BitIndex.iterate
    rw [made]
    change (index.deref itr).bind _ = _
    rw [read]
    change (index.nextSetBit itr).bind _ = _
    rw [stepped]
    change (index.follow fuel next).bind _ = _
    rw [followed, ← isBit]
    rfl
  refine ⟨fuel, itr, visited, visits, ?_⟩
  rw [result, ← iff]
  cases isSet with
  | true => exact .inl ⟨rfl, rfl⟩
  | false => exact .inr ⟨Bool.false_ne_true, rfl⟩

theorem iterate_unique {level : Nat} {index : BitIndex level} {fuel other bit : Nat}
    {left right : List Nat} (isLeft : index.iterate fuel bit = some left)
    (isRight : index.iterate other bit = some right) : left = right := by
  unfold BitIndex.iterate at isLeft isRight
  cases made : index.iteratorAt bit with
  | none => simp [made] at isLeft
  | some itr =>
      cases read : index.deref itr with
      | none => simp [made, read] at isLeft
      | some isSet =>
          cases stepped : index.nextSetBit itr with
          | none => simp [made, read, stepped] at isLeft
          | some next =>
              cases followedLeft : index.follow fuel next with
              | none => simp [made, read, stepped, followedLeft] at isLeft
              | some restLeft =>
                  cases followedRight : index.follow other next with
                  | none => simp [made, read, stepped, followedRight] at isRight
                  | some restRight =>
                      have same := BitIndex.follow_unique followedLeft followedRight
                      simp only [made, read, stepped, followedLeft, followedRight,
                        Option.bind_eq_bind, Option.bind_some, pure, Option.some.injEq] at *
                      rw [← isLeft, ← isRight, same]

/-- The positions visited are right just when the iterator starts right and stays right. -/
theorem enumerates_iff {level : Nat} {index : BitIndex level} {itr : Iterator level} {bit : Nat}
    {visited : List Nat} (visits : Visits index itr (relocate level bit) visited) :
    (index.Contains (relocate level bit) ∧
        Enumerates (fun place => index.Contains place ∧ bit ≤ place) (bit :: visited) ∨
      ¬ index.Contains (relocate level bit) ∧
        Enumerates (fun place => index.Contains place ∧ bit ≤ place) visited) ↔
    StartsRight level index.Contains bit ∧
      Onward level index.Contains (relocate level bit) := by
  rw [← visits.exact]
  constructor
  · rintro (⟨isSet, whole⟩ | ⟨isClear, whole⟩)
    · obtain ⟨before, _⟩ := List.pairwise_cons.mp whole.ascending
      have bitSet := ((whole.mem_iff bit).mp List.mem_cons_self).1
      have same : relocate level bit = bit := by
        rcases Nat.lt_trichotomy (relocate level bit) bit with below | same | above
        · obtain ⟨next, isHead, small⟩ := visits.head bit bitSet below
          exact absurd (before next (List.mem_of_head? isHead)) (Nat.not_lt_of_le small)
        · exact same
        · have member := (whole.mem_iff _).mpr ⟨isSet, Nat.le_of_lt above⟩
          rcases List.mem_cons.mp member with isBit | isLater
          · exact isBit
          · exact absurd (visits.above _ isLater).2 (Nat.lt_irrefl _)
      refine ⟨.inl same, ?_⟩
      rw [same] at visits ⊢
      refine ⟨(List.pairwise_cons.mp whole.ascending).2, fun place => ?_⟩
      constructor
      · exact fun member => visits.above place member
      · rintro ⟨contains, above⟩
        rcases List.mem_cons.mp ((whole.mem_iff place).mpr ⟨contains, Nat.le_of_lt above⟩) with
          isBit | isLater
        · exact absurd isBit (Nat.ne_of_gt above)
        · exact isLater
    · have sameSide : ∀ place, index.Contains place →
          (bit ≤ place ↔ relocate level bit < place) := by
        intro place contains
        constructor
        · intro notBelow
          exact (visits.above place ((whole.mem_iff place).mpr ⟨contains, notBelow⟩)).2
        · intro above
          obtain ⟨next, isHead, small⟩ := visits.head place contains above
          have isNext := (whole.mem_iff next).mp (List.mem_of_head? isHead)
          exact Nat.le_trans isNext.2 small
      refine ⟨.inr ⟨isClear, sameSide⟩, ?_⟩
      refine (Enumerates.congr fun place => ?_).mp whole
      exact and_congr_right fun contains => sameSide place contains
  · rintro ⟨same | ⟨isClear, sameSide⟩, exact_⟩
    · rw [same] at visits exact_ ⊢
      by_cases isSet : index.Contains bit
      · refine .inl ⟨isSet, List.pairwise_cons.mpr ⟨fun place member =>
          (visits.above place member).2, exact_.ascending⟩, fun place => ?_⟩
        rw [List.mem_cons, exact_.mem_iff]
        constructor
        · rintro (rfl | ⟨contains, above⟩)
          · exact ⟨isSet, Nat.le_refl _⟩
          · exact ⟨contains, Nat.le_of_lt above⟩
        · rintro ⟨contains, notBelow⟩
          rcases Nat.eq_or_lt_of_le notBelow with isBit | above
          · exact .inl isBit.symm
          · exact .inr ⟨contains, above⟩
      · refine .inr ⟨isSet, (Enumerates.congr fun place => ?_).mpr exact_⟩
        apply and_congr_right
        intro contains
        constructor
        · intro notBelow
          exact Nat.lt_of_le_of_ne notBelow fun isBit => isSet (isBit ▸ contains)
        · exact Nat.le_of_lt
    · refine .inr ⟨isClear, (Enumerates.congr fun place => ?_).mpr exact_⟩
      exact and_congr_right fun contains => sameSide place contains

theorem Stands.iteratesFrom_iff {level : Nat} {index : BitIndex level} {positions : Finset Nat}
    (stands : Stands index positions) {bit : Nat} (inRange : bit < indexSize level) :
    IteratesFrom index bit (· ∈ positions) ↔
      StartsRight level (· ∈ positions) bit ∧
        Onward level (· ∈ positions) (relocate level bit) := by
  have contains : index.Contains = (· ∈ positions) :=
    funext fun pos => propext (stands.contains pos)
  rw [← contains]
  obtain ⟨fuel, itr, visited, visits, outcome⟩ := iterate_spec stands.summarised inRange
  rw [← enumerates_iff visits]
  constructor
  · rintro ⟨other, others, iterated, enumerates⟩
    rcases outcome with ⟨isSet, isVisited⟩ | ⟨isClear, isVisited⟩
    · exact .inl ⟨isSet, iterate_unique iterated isVisited ▸ enumerates⟩
    · exact .inr ⟨isClear, iterate_unique iterated isVisited ▸ enumerates⟩
  · rintro (⟨isSet, enumerates⟩ | ⟨isClear, enumerates⟩)
    · rcases outcome with ⟨_, isVisited⟩ | ⟨isClear, _⟩
      · exact ⟨fuel, _, isVisited, enumerates⟩
      · exact absurd isSet isClear
    · rcases outcome with ⟨isSet, _⟩ | ⟨_, isVisited⟩
      · exact absurd isSet isClear
      · exact ⟨fuel, _, isVisited, enumerates⟩

variable {level : Nat}

/-- After any sequence of operations, iterating visits the positions not below the starting
bit just when the iterators that it makes start and stay right. -/
theorem iterates_iff {operations : List Operation} {results : List (Option Bool)}
    {index : BitIndex level} (inRange : ∀ operation ∈ operations, operation.bit < indexSize level)
    (result : (BitIndex.empty level).run operations = some (results, index)) {bit : Nat}
    (bitInRange : bit < indexSize level) :
    IteratesFrom index bit (· ∈ (runSet ∅ operations).2) ↔
      StartsRight level (· ∈ (runSet ∅ operations).2) bit ∧
        Onward level (· ∈ (runSet ∅ operations).2) (relocate level bit) := by
  obtain ⟨reached, isReached, stands⟩ := (Stands.empty level).run_eq operations inRange
  rw [result] at isReached
  obtain ⟨_, rfl⟩ := Prod.mk.inj (Option.some.inj isReached)
  exact stands.iteratesFrom_iff bitInRange

/-- Two positions of a third-level index. -/
theorem iterates_iff_two :
    ∃ index : BitIndex 2, (BitIndex.empty 2).run [.set 5, .set 4097] = some ([none, none], index) ∧
      (IteratesFrom index 0 (· ∈ (runSet ∅ [.set 5, .set 4097]).2) ↔
        StartsRight 2 (· ∈ (runSet ∅ [.set 5, .set 4097]).2) 0 ∧
          Onward 2 (· ∈ (runSet ∅ [.set 5, .set 4097]).2) (relocate 2 0)) := by
  have inRange : ∀ operation ∈ [Operation.set 5, .set 4097], operation.bit < indexSize 2 := by
    decide
  obtain ⟨index, result, _⟩ := (Stands.empty 2).run_eq _ inRange
  exact ⟨index, result, iterates_iff inRange result (by decide)⟩

/-- The iterator of position 4096 reads position 0. -/
theorem iterates_elsewhere :
    ∃ index : BitIndex 2, (BitIndex.empty 2).run [.set 0] = some ([none], index) ∧
      ¬ IteratesFrom index 4096 (· ∈ (runSet ∅ [.set 0]).2) := by
  obtain ⟨index, result, iterated⟩ : ∃ index : BitIndex 2,
      (BitIndex.empty 2).run [.set 0] = some ([none], index) ∧
        index.iterate 2 4096 = some [4096] :=
    ⟨_, rfl, by decide +kernel⟩
  refine ⟨index, result, ?_⟩
  rintro ⟨fuel, visited, others, enumerates⟩
  rw [← iterate_unique iterated others] at enumerates
  have isSet := ((enumerates.mem_iff 4096).mp List.mem_cons_self).1
  revert isSet
  decide

end MallocSurvey.FcMalloc
