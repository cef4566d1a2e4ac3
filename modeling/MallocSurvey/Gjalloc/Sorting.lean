import MallocSurvey.Gjalloc.Page

/-! # `ba_sort_list` -/

namespace MallocSurvey.Gjalloc

variable {l : Layout} {p first stop bytes fuel : Nat} {memory : Words} {indices : List Nat}
  {tagged : Bool}

/-- The bits of some positions. -/
def bitsOf (indices : List Nat) : Nat → Bool := fun i => i ∈ indices

/-! ## Marking -/

theorem markBlocks_succ (b length : Nat) (v : Nat → Bool) :
    markBlocks bytes l p memory (fuel + 1) b length v =
      if b = 0 then some (length, v)
      else (bvSet bytes v (l.nBlock p b)).bind fun v =>
        if memory b = baOne then some (l.nBlock p b + 1, v)
        else markBlocks bytes l p memory fuel (memory b) length v := rfl

theorem markBlocks_some (valid : l.Valid) (chain : Chain l p memory stop first indices)
    (ends : stop ≤ baOne) (nonempty : stop = baOne → indices ≠ [])
    (room : ∀ i ∈ indices, i < 8 * bytes) (enough : indices.length < fuel)
    (length : Nat) (v : Nat → Bool) :
    markBlocks bytes l p memory fuel first length v =
      some (if stop = baOne then indices.getLastD 0 + 1 else length,
        fun i => v i || bitsOf indices i) := by
  induction indices generalizing first fuel v with
  | nil =>
      obtain ⟨fuel, rfl⟩ := Nat.exists_eq_succ_of_ne_zero (Nat.ne_zero_of_lt enough)
      have notTagged : stop ≠ baOne := fun isOne => nonempty isOne rfl
      have isNull : first = 0 := by
        have isStop : first = stop := chain
        unfold baOne at ends notTagged
        omega
      rw [markBlocks, if_pos isNull, if_neg notTagged]
      simp [bitsOf]
  | cons i rest induction =>
      obtain ⟨fuel, rfl⟩ := Nat.exists_eq_succ_of_ne_zero (Nat.ne_zero_of_lt enough)
      obtain ⟨isFirst, restChain⟩ := chain
      have above := Layout.one_lt_blockN l p i
      have notNull : first ≠ 0 := by omega
      have isBlock : l.nBlock p first = i := by
        rw [isFirst]
        exact Layout.nBlock_blockN valid i
      have isSet : bvSet bytes v i = some (Function.update v i true) :=
        if_pos (room i List.mem_cons_self)
      have bits : ∀ j, (Function.update v i true j || bitsOf rest j) =
          (v j || bitsOf (i :: rest) j) := by
        intro j
        unfold bitsOf
        by_cases same : j = i
        · simp [same]
        · simp [same]
      rw [markBlocks_succ, if_neg notNull, isBlock, isSet, Option.bind_some]
      rcases restChain.first_cases with ⟨isEmpty, isStop⟩ | ⟨j, others, isCons, isNext⟩
      · subst isEmpty
        by_cases isOne : stop = baOne
        · rw [if_pos (isStop.trans isOne), if_pos isOne]
          have same : (fun j => Function.update v i true j) =
              fun j => v j || bitsOf [i] j := by
            funext j
            rw [← bits j]
            simp [bitsOf]
          exact congrArg (fun v => some (i + 1, v)) same
        · have notOne : memory first ≠ baOne := isStop ▸ isOne
          rw [if_neg notOne, induction restChain (fun isTag => absurd isTag isOne)
            (fun j member => absurd member List.not_mem_nil) (by simp at enough ⊢; omega)]
          rw [if_neg isOne, if_neg isOne]
          simp only [bits]
      · subst isCons
        have notOne : memory first ≠ baOne := by
          rw [isNext]
          exact (Layout.one_lt_blockN l p j).ne'
        rw [if_neg notOne, induction restChain (fun _ => List.cons_ne_nil _ _)
          (fun k member => room k (List.mem_cons_of_mem _ member))
          (Nat.lt_of_succ_lt_succ enough)]
        simp only [bits]
        rfl

/-- A position beyond the bit vector is a fault. -/
theorem markBlocks_none (valid : l.Valid) {front : List Nat} {i : Nat}
    (chain : Chain l p memory (l.blockN p i) first front)
    (noTag : ∀ j ∈ front, memory (l.blockN p j) ≠ baOne)
    (beyond : ¬ i < 8 * bytes) (length : Nat) (v : Nat → Bool) :
    markBlocks bytes l p memory fuel first length v = none := by
  induction front generalizing first fuel v with
  | nil =>
      cases fuel with
      | zero => rfl
      | succ fuel =>
          have isFirst : first = l.blockN p i := chain
          have above := Layout.one_lt_blockN l p i
          have notNull : first ≠ 0 := by omega
          have isBlock : l.nBlock p first = i := by
            rw [isFirst]
            exact Layout.nBlock_blockN valid i
          have notSet : bvSet bytes v i = none := if_neg beyond
          rw [markBlocks_succ, if_neg notNull, isBlock, notSet]
          rfl
  | cons j rest induction =>
      cases fuel with
      | zero => rfl
      | succ fuel =>
          obtain ⟨isFirst, restChain⟩ := chain
          have above := Layout.one_lt_blockN l p j
          have notNull : first ≠ 0 := by omega
          have notOne : memory first ≠ baOne := isFirst ▸ noTag j List.mem_cons_self
          rw [markBlocks_succ, if_neg notNull]
          cases bvSet bytes v (l.nBlock p first) with
          | none => rfl
          | some v =>
              rw [Option.bind_some, if_neg notOne]
              exact induction restChain (fun k member => noTag k (List.mem_cons_of_mem _ member)) v

/-! ## Stripping -/

theorem stripBits_spec (v : Nat → Bool) (i : Nat) : stripBits v i ≤ i ∧
    (∀ j, stripBits v i < j → j ≤ i → v j = true) ∧
    (stripBits v i = 0 ∨ v (stripBits v i) = false) := by
  induction i with
  | zero => exact ⟨Nat.le_refl _, fun j above below => by omega, .inl rfl⟩
  | succ i induction =>
      obtain ⟨below, set, last⟩ := induction
      by_cases isSet : v (i + 1) = true
      · have isStrip : stripBits v (i + 1) = stripBits v i := by rw [stripBits, if_pos isSet]
        rw [isStrip]
        refine ⟨by omega, ?_, last⟩
        intro j above atMost
        by_cases isLast : j = i + 1
        · exact isLast ▸ isSet
        · exact set j above (by omega)
      · have isStrip : stripBits v (i + 1) = i + 1 := by rw [stripBits, if_neg isSet]
        rw [isStrip]
        refine ⟨Nat.le_refl _, fun j above atMost => by omega, .inr ?_⟩
        simpa using isSet

theorem mem_setBits {v : Nat → Bool} {length i : Nat} :
    i ∈ setBits v length ↔ i < length ∧ v i = true := by
  unfold setBits
  rw [List.mem_filter, List.mem_range]

theorem setBits_sorted (v : Nat → Bool) (length : Nat) :
    (setBits v length).Pairwise (· < ·) :=
  List.pairwise_lt_range.filter _

/-! ## Linking -/

/-- Linking some blocks and storing a value at the end. -/
theorem rechain_spec (valid : l.Valid) (head : Nat) (t : Option Nat) (nodup : indices.Nodup)
    (fresh : ∀ c, t = some c → ∀ i ∈ indices, c ≠ l.blockN p i) (value : Nat) :
    ∃ last memoryMid headMid newHead newMemory,
      rechain l p head memory t indices = (headMid, memoryMid, last) ∧
      storeAt headMid memoryMid last value = (newHead, newMemory) ∧
      (t = none → Chain l p newMemory value newHead indices) ∧
      (∀ c, t = some c → newHead = head ∧ Chain l p newMemory value (newMemory c) indices) ∧
      ∀ place, t ≠ some place → (∀ i ∈ indices, place ≠ l.blockN p i) →
        newMemory place = memory place := by
  induction indices generalizing head memory t with
  | nil =>
      cases t with
      | none =>
          refine ⟨none, memory, head, value, memory, rfl, rfl, fun _ => rfl, ?_, fun _ _ _ => rfl⟩
          intro c impossible
          cases impossible
      | some c =>
          refine ⟨some c, memory, head, head, Function.update memory c value, rfl, rfl, ?_, ?_, ?_⟩
          · intro impossible
            cases impossible
          · rintro other ⟨⟩
            exact ⟨rfl, Function.update_self ..⟩
          · intro place different _
            exact Function.update_of_ne (fun same => different (congrArg some same.symm)) _ _
  | cons i rest induction =>
      obtain ⟨notMember, restNodup⟩ := List.nodup_cons.mp nodup
      obtain ⟨headOne, memoryOne, isStore⟩ : ∃ headOne memoryOne,
          storeAt head memory t (l.blockN p i) = (headOne, memoryOne) := ⟨_, _, rfl⟩
      have restFresh : ∀ c, some (l.blockN p i) = some c → ∀ j ∈ rest, c ≠ l.blockN p j := by
        rintro c ⟨⟩ j member same
        exact notMember ((Layout.blockN_inj valid).mp same ▸ member)
      obtain ⟨last, memoryMid, headMid, newHead, newMemory, isRest, isLast, _, linked, frame⟩ :=
        @induction memoryOne headOne (some (l.blockN p i)) restNodup restFresh
      obtain ⟨sameHead, restChain⟩ := linked _ rfl
      refine ⟨last, memoryMid, headMid, newHead, newMemory, ?_, isLast, ?_, ?_, ?_⟩
      · rw [rechain]
        dsimp only
        rw [isStore]
        exact isRest
      · rintro rfl
        cases isStore
        exact ⟨sameHead, sameHead ▸ restChain⟩
      · rintro c rfl
        cases isStore
        refine ⟨sameHead, ?_⟩
        have atCell : newMemory c = l.blockN p i := by
          rw [frame c _ (fun j member => fresh c rfl j (List.mem_cons_of_mem _ member))]
          · exact Function.update_self ..
          · rintro ⟨⟩
            exact fresh _ rfl i List.mem_cons_self rfl
        exact ⟨atCell, atCell ▸ restChain⟩
      · intro place notCell outside
        have notBlock := outside i List.mem_cons_self
        rw [frame place (fun same => notBlock (Option.some.inj same).symm)
          fun j member => outside j (List.mem_cons_of_mem _ member)]
        cases t with
        | none =>
            cases isStore
            rfl
        | some c =>
            cases isStore
            exact Function.update_of_ne (fun same => notCell (congrArg some same.symm)) _ _

/-! ## The list -/

/-- Where the free blocks at the end start, if there are any. -/
def lengthOf (blocks stop : Nat) (indices : List Nat) : Nat :=
  stripBits (bitsOf indices)
    ((if stop = baOne then indices.getLastD 0 + 1 else blocks) - 1) + 1

theorem length_le_of_nodup {bound : Nat} (nodup : indices.Nodup)
    (small : ∀ i ∈ indices, i < bound) : indices.length ≤ bound := by
  have subset : indices ⊆ List.range bound := fun i member => List.mem_range.mpr (small i member)
  have length := (nodup.subperm subset).length_le
  rwa [List.length_range] at length

/-- `ba_sort_list` after the blocks of the list have been marked. -/
theorem baSortList_of_marked {bvLength length stripped : Nat} {bits : Nat → Bool}
    (marked : markBlocks (bvByteLength bvLength l.blocks) l p memory (l.blocks + 2) first
      l.blocks (fun _ => false) = some (length, bits))
    (positive : length ≠ 0) (isStripped : stripped = stripBits bits (length - 1) + 1) :
    baSortList bvLength l p first memory =
      (let (head, memory, t) := rechain l p first memory none (setBits bits stripped)
      if stripped < l.blocks then
        let (head, memory) := storeAt head memory t (l.blockN p stripped)
        (storeNext l p memory (l.blockN p stripped) baOne).map fun memory => (head, memory)
      else some (storeAt head memory t 0)) := by
  unfold baSortList
  rw [marked, Option.bind_eq_bind, Option.bind_some]
  dsimp only
  rw [if_pos positive, ← isStripped]
  split
  · cases storeNext l p _ (l.blockN p stripped) baOne with
    | none => rfl
    | some memory => rfl
  · rfl

theorem baSortList_spec {bvLength : Nat} (valid : l.Valid)
    (chain : Chain l p memory stop first indices) (ends : stop ≤ baOne)
    (nonempty : stop = baOne → indices ≠ []) (nodup : indices.Nodup)
    (small : ∀ i ∈ indices, i < l.blocks + 1)
    (room : ∀ i ∈ indices, i < 8 * bvByteLength bvLength l.blocks) :
    ∃ newFirst newMemory, baSortList bvLength l p first memory = some (newFirst, newMemory) ∧
      (lengthOf l.blocks stop indices < l.blocks →
        Chain l p newMemory baOne newFirst
          (setBits (bitsOf indices) (lengthOf l.blocks stop indices) ++
            [lengthOf l.blocks stop indices])) ∧
      (¬ lengthOf l.blocks stop indices < l.blocks →
        Chain l p newMemory 0 newFirst
          (setBits (bitsOf indices) (lengthOf l.blocks stop indices))) ∧
      ∀ place, (∀ i ∈ indices, i < lengthOf l.blocks stop indices → place ≠ l.blockN p i) →
        (lengthOf l.blocks stop indices < l.blocks →
          place ≠ l.blockN p (lengthOf l.blocks stop indices)) →
        newMemory place = memory place := by
  have blocks := valid.blocks
  have enough : indices.length < l.blocks + 2 := by
    have length := length_le_of_nodup nodup small
    omega
  have marked := markBlocks_some valid chain ends nonempty room enough l.blocks fun _ => false
  simp only [Bool.false_or] at marked
  obtain ⟨length, isLength⟩ : ∃ length,
      (if stop = baOne then indices.getLastD 0 + 1 else l.blocks) = length := ⟨_, rfl⟩
  rw [isLength] at marked
  have positive : length ≠ 0 := by
    rw [← isLength]
    split
    · omega
    · omega
  have isStripped : lengthOf l.blocks stop indices = stripBits (bitsOf indices) (length - 1) + 1 := by
    unfold lengthOf
    rw [isLength]
  obtain ⟨stripped, isL⟩ : ∃ stripped, lengthOf l.blocks stop indices = stripped := ⟨_, rfl⟩
  rw [isL] at isStripped ⊢
  have bitsNodup : (setBits (bitsOf indices) stripped).Nodup :=
    (setBits_sorted _ _).imp fun below => Nat.ne_of_lt below
  have outside : ∀ {place}, (∀ i ∈ indices, i < stripped → place ≠ l.blockN p i) →
      ∀ i ∈ setBits (bitsOf indices) stripped, place ≠ l.blockN p i := by
    intro place away i member
    obtain ⟨below, isBit⟩ := mem_setBits.mp member
    exact away i (by simpa [bitsOf] using isBit) below
  rw [baSortList_of_marked marked positive isStripped]
  by_cases inside : stripped < l.blocks
  · obtain ⟨last, memoryMid, headMid, newHead, newMemory, isChain, isStore, linked, _, frame⟩ :=
      @rechain_spec l p memory _ valid first none bitsNodup (fun c impossible => by
        cases impossible) (l.blockN p stripped)
    have stored : storeNext l p newMemory (l.blockN p stripped) baOne =
        some (Function.update newMemory (l.blockN p stripped) baOne) :=
      if_pos (Layout.blockN_inside valid inside)
    rw [isChain]
    dsimp only
    rw [if_pos inside, isStore]
    dsimp only
    rw [stored]
    refine ⟨newHead, Function.update newMemory (l.blockN p stripped) baOne, rfl, ?_,
      fun notInside => absurd inside notInside, ?_⟩
    · intro _
      have kept : Chain l p (Function.update newMemory (l.blockN p stripped) baOne)
          (l.blockN p stripped) newHead (setBits (bitsOf indices) stripped) := by
        apply (linked rfl).congr
        intro i member
        apply Function.update_of_ne
        intro same
        have isSame := (Layout.blockN_inj valid).mp same
        have below := (mem_setBits.mp member).1
        omega
      have longer := kept.snoc
      rw [Function.update_self] at longer
      exact longer
    · intro place away notLast
      rw [Function.update_of_ne (notLast inside)]
      exact frame place (fun impossible => by cases impossible) (outside away)
  · obtain ⟨last, memoryMid, headMid, newHead, newMemory, isChain, isStore, linked, _, frame⟩ :=
      @rechain_spec l p memory _ valid first none bitsNodup (fun c impossible => by
        cases impossible) 0
    rw [isChain]
    dsimp only
    rw [if_neg inside, isStore]
    exact ⟨newHead, newMemory, rfl, fun isInside => absurd isInside inside,
      fun _ => linked rfl, fun place away _ => frame place (fun impossible => by
        cases impossible) (outside away)⟩

/-- A position beyond the bit vector is a fault of the whole function. -/
theorem baSortList_none {bvLength i : Nat} (valid : l.Valid)
    (chain : Chain l p memory (l.blockN p i) first indices)
    (noTag : ∀ j ∈ indices, memory (l.blockN p j) ≠ baOne)
    (beyond : ¬ i < 8 * bvByteLength bvLength l.blocks) :
    baSortList bvLength l p first memory = none := by
  unfold baSortList
  rw [markBlocks_none valid chain noTag beyond]
  rfl

/-! ## What is free -/

theorem FreeList.getLastD_eq (list : FreeList l p memory first indices true) :
    ∃ last, last < l.blocks ∧ indices.getLastD 0 = last ∧ indices ≠ [] ∧
      (∀ i ∈ indices, i ≤ last) ∧ last ∈ indices := by
  obtain ⟨front, last, isList, below⟩ := list.tag rfl
  refine ⟨last, list.bound last (by simp [isList]), by simp [isList], by simp [isList], ?_, by
    simp [isList]⟩
  intro i member
  rw [isList, List.mem_append, List.mem_singleton] at member
  rcases member with isFront | isLast
  · exact Nat.le_of_lt (below i isFront)
  · exact Nat.le_of_eq isLast

/-- The blocks from the length on are free, and so are the marked ones below it. -/
theorem FreeList.lengthOf_spec (valid : l.Valid)
    (list : FreeList l p memory first indices tagged) :
    1 ≤ lengthOf l.blocks (endOf tagged) indices ∧
      lengthOf l.blocks (endOf tagged) indices ≤ l.blocks ∧
      (∀ i, lengthOf l.blocks (endOf tagged) indices ≤ i → i < l.blocks →
        i ∈ freeSet l.blocks indices tagged) ∧
      (∀ i, i < lengthOf l.blocks (endOf tagged) indices →
        (i ∈ indices ↔ i ∈ freeSet l.blocks indices tagged)) ∧
      (lengthOf l.blocks (endOf tagged) indices = 1 ∨
        lengthOf l.blocks (endOf tagged) indices - 1 ∉ freeSet l.blocks indices tagged) := by
  have blocks := valid.blocks
  unfold lengthOf
  cases tagged with
  | false =>
      have notOne : endOf false ≠ baOne := by decide
      rw [if_neg notOne]
      obtain ⟨below, set, last⟩ := stripBits_spec (bitsOf indices) (l.blocks - 1)
      have free : ∀ i, i ∈ freeSet l.blocks indices false ↔ i ∈ indices :=
        fun i => mem_freeSet_untagged list.bound
      refine ⟨by omega, by omega, ?_, fun i _ => (free i).symm, ?_⟩
      · intro i above inRange
        have isBit := set i (by omega) (by omega)
        exact (free i).mpr (by simpa [bitsOf] using isBit)
      · rw [Nat.add_sub_cancel, free]
        rcases last with isZero | notBit
        · exact .inl (by omega)
        · exact .inr (by simpa [bitsOf] using notBit)
  | true =>
      obtain ⟨tag, inRange, isLast, _, atMost, isMember⟩ := list.getLastD_eq
      obtain ⟨front, other, isList, before⟩ := list.tag rfl
      have isOther : tag = other := by
        rw [← isLast, isList]
        simp
      subst isOther
      have isOne : endOf true = baOne := rfl
      have ofFront : ∀ i ∈ front, i ∈ indices := by
        intro i isFront
        rw [isList]
        exact List.mem_append_left _ isFront
      have free : ∀ i, i ∈ freeSet l.blocks indices true ↔
          i ∈ front ∨ tag ≤ i ∧ i < l.blocks := by
        intro i
        rw [isList]
        exact mem_freeSet_snoc (isList ▸ list.bound)
      rw [if_pos isOne, isLast, Nat.add_sub_cancel]
      obtain ⟨below, set, last⟩ := stripBits_spec (bitsOf indices) tag
      refine ⟨by omega, by omega, ?_, ?_, ?_⟩
      · intro i above inside
        by_cases isAfter : tag ≤ i
        · exact (free i).mpr (.inr ⟨isAfter, inside⟩)
        · have isBit := set i (by omega) (by omega)
          exact list.mem_free (by simpa [bitsOf] using isBit)
      · intro i below
        refine ⟨list.mem_free, ?_⟩
        intro isFree
        rcases (free i).mp isFree with isFront | ⟨isAfter, _⟩
        · exact ofFront i isFront
        · have isTag : i = tag := by omega
          exact isTag ▸ isMember
      · rw [Nat.add_sub_cancel]
        rcases last with isZero | notBit
        · exact .inl (by omega)
        · refine .inr fun isFree => ?_
          rcases (free _).mp isFree with isFront | ⟨isAfter, _⟩
          · have isIn := ofFront _ isFront
            simp [bitsOf, isIn] at notBit
          · have isTag : stripBits (bitsOf indices) tag = tag := by omega
            rw [isTag] at notBit
            simp [bitsOf, isMember] at notBit

theorem room_of_lt {bvLength i : Nat} (positive : 0 < bvLength) (inRange : i < l.blocks) :
    i < 8 * bvByteLength bvLength l.blocks := by
  obtain ⟨bytes, isBytes⟩ : ∃ bytes,
      l.blocks / 8 + (if l.blocks % 8 ≠ 0 then 1 else 0) = bytes := ⟨_, rfl⟩
  have enough : l.blocks ≤ 8 * bytes := by
    split at isBytes
    · omega
    · omega
  have rest := Nat.mod_lt bytes positive
  unfold bvByteLength
  rw [isBytes]
  dsimp only
  split
  · omega
  · omega

/-- The bits below a length, and a tag there if it is in the page, list the free blocks. -/
theorem setBits_list {v : Nat → Bool} {length : Nat} {free : Finset Nat}
    (bits : ∀ i, i ∈ setBits v length ↔ i < length ∧ i ∈ free)
    (inRange : ∀ i ∈ free, i < l.blocks)
    (freeTail : ∀ i, length ≤ i → i < l.blocks → i ∈ free)
    (tail : length < l.blocks → Chain l p memory baOne first (setBits v length ++ [length]))
    (noTail : ¬ length < l.blocks → Chain l p memory 0 first (setBits v length)) :
    ∃ sorted newTagged, FreeList l p memory first sorted newTagged ∧ sorted.Pairwise (· < ·) ∧
      freeSet l.blocks sorted newTagged = free ∧ (newTagged = true ↔ length < l.blocks) := by
  have ascending := setBits_sorted v length
  by_cases inside : length < l.blocks
  · have bound : ∀ i ∈ setBits v length ++ [length], i < l.blocks := by
      intro i member
      rcases List.mem_append.mp member with isBit | isLast
      · exact inRange i ((bits i).mp isBit).2
      · exact List.mem_singleton.mp isLast ▸ inside
    have sorted : (setBits v length ++ [length]).Pairwise (· < ·) := by
      rw [List.pairwise_append]
      refine ⟨ascending, List.pairwise_singleton _ _, ?_⟩
      intro i isBit last isLast
      rw [List.mem_singleton.mp isLast]
      exact ((bits i).mp isBit).1
    refine ⟨_, true, ⟨tail inside, bound, sorted.imp Nat.ne_of_lt, ?_⟩, sorted, ?_,
      iff_of_true rfl inside⟩
    · exact fun _ => ⟨_, _, rfl, fun i isBit => ((bits i).mp isBit).1⟩
    · ext i
      rw [mem_freeSet_snoc bound, bits]
      constructor
      · rintro (⟨_, isFree⟩ | ⟨above, inPage⟩)
        · exact isFree
        · exact freeTail i above inPage
      · intro isFree
        by_cases below : i < length
        · exact .inl ⟨below, isFree⟩
        · exact .inr ⟨by omega, inRange i isFree⟩
  · have bound : ∀ i ∈ setBits v length, i < l.blocks :=
      fun i isBit => inRange i ((bits i).mp isBit).2
    refine ⟨_, false, ⟨noTail inside, bound, ascending.imp Nat.ne_of_lt, ?_⟩, ascending, ?_,
      iff_of_false (by decide) inside⟩
    · intro impossible
      cases impossible
    · ext i
      rw [mem_freeSet_untagged bound, bits]
      constructor
      · exact And.right
      · intro isFree
        have inPage := inRange i isFree
        exact ⟨by omega, isFree⟩

/-- Sorting keeps the free blocks and leaves the others as they are. There is a tag if the last
block is free and is not the only one. -/
theorem FreeList.sort {bvLength : Nat} (valid : l.Valid)
    (positive : 0 < bvLength) (list : FreeList l p memory first indices tagged) :
    ∃ newFirst newMemory sorted newTagged,
      baSortList bvLength l p first memory = some (newFirst, newMemory) ∧
      FreeList l p newMemory newFirst sorted newTagged ∧ sorted.Pairwise (· < ·) ∧
      freeSet l.blocks sorted newTagged = freeSet l.blocks indices tagged ∧
      (newTagged = true ↔ l.blocks - 1 ∈ freeSet l.blocks indices tagged ∧ 1 < l.blocks) ∧
      ∀ place, (∀ i ∈ freeSet l.blocks indices tagged, place ≠ l.blockN p i) →
        newMemory place = memory place := by
  have nonempty : endOf tagged = baOne → indices ≠ [] := by
    intro isOne
    have isTagged : tagged = true := endOf_inj isOne
    obtain ⟨front, last, isList, _⟩ := list.tag isTagged
    simp [isList]
  obtain ⟨newFirst, newMemory, isSort, tail, noTail, frame⟩ := @baSortList_spec l p first
    (endOf tagged) memory indices bvLength valid list.chain (endOf_le _) nonempty list.nodup
    (fun i member => Nat.lt_succ_of_lt (list.bound i member))
    (fun i member => room_of_lt positive (list.bound i member))
  obtain ⟨atLeast, atMost, freeTail, freeBits, isStop⟩ := list.lengthOf_spec valid
  obtain ⟨length, isLength⟩ : ∃ length, lengthOf l.blocks (endOf tagged) indices = length :=
    ⟨_, rfl⟩
  rw [isLength] at tail noTail frame atLeast atMost freeTail freeBits isStop
  have bits : ∀ i, i ∈ setBits (bitsOf indices) length ↔
      i < length ∧ i ∈ freeSet l.blocks indices tagged := by
    intro i
    rw [mem_setBits]
    constructor
    · rintro ⟨below, isBit⟩
      exact ⟨below, (freeBits i below).mp (by simpa [bitsOf] using isBit)⟩
    · rintro ⟨below, isFree⟩
      exact ⟨below, by simpa [bitsOf] using (freeBits i below).mpr isFree⟩
  obtain ⟨sorted, newTagged, sortedList, ascending, sameFree, tagIff⟩ := setBits_list bits
    (fun i isFree => (mem_freeSet.mp isFree).1) freeTail tail noTail
  refine ⟨newFirst, newMemory, sorted, newTagged, isSort, sortedList, ascending, sameFree,
    tagIff.trans ⟨fun inside => ?_, fun ⟨lastFree, two⟩ => ?_⟩, ?_⟩
  · exact ⟨freeTail _ (by omega) (by omega), by omega⟩
  · by_contra notInside
    have isAll : length = l.blocks := by omega
    rcases isStop with isOne | notFree
    · omega
    · exact notFree (isAll ▸ lastFree)
  · intro place notFree
    apply frame
    · exact fun i member _ => notFree i (list.mem_free member)
    · exact fun inside => notFree length (freeTail length (Nat.le_refl _) inside)

/-- A header that says so is sorted already. -/
theorem FreeList.baSort {bvLength : Nat} {h : PageHeader} (valid : l.Valid)
    (positive : 0 < bvLength) (list : FreeList l p memory h.first indices tagged)
    (isSorted : h.sorted → indices.Pairwise (· < ·)) :
    ∃ newHeader newMemory sorted newTagged,
      baSort bvLength l p h memory = some (newHeader, newMemory) ∧
      newHeader.used = h.used ∧ newHeader.sorted = true ∧
      FreeList l p newMemory newHeader.first sorted newTagged ∧ sorted.Pairwise (· < ·) ∧
      freeSet l.blocks sorted newTagged = freeSet l.blocks indices tagged ∧
      (newTagged = true ↔ if h.sorted then tagged = true
        else l.blocks - 1 ∈ freeSet l.blocks indices tagged ∧ 1 < l.blocks) ∧
      ∀ place, (∀ i ∈ freeSet l.blocks indices tagged, place ≠ l.blockN p i) →
        newMemory place = memory place := by
  by_cases flag : h.sorted = true
  · refine ⟨h, memory, indices, tagged, if_pos flag, rfl, flag, list, isSorted flag, rfl, ?_,
      fun _ _ => rfl⟩
    rw [if_pos flag]
  · obtain ⟨newFirst, newMemory, sorted, newTagged, isSort, sortedList, ascending, sameFree,
      tagIff, frame⟩ := list.sort valid positive
    refine ⟨⟨newFirst, h.used, true⟩, newMemory, sorted, newTagged, ?_, rfl, rfl, sortedList,
      ascending, sameFree, ?_, frame⟩
    · rw [Gjalloc.baSort, if_neg flag, isSort]
      rfl
    · rw [if_neg flag]
      exact tagIff

end MallocSurvey.Gjalloc
