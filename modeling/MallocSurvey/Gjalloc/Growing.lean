import MallocSurvey.Gjalloc.Chunks
import Mathlib.Order.Interval.Finset.Nat

/-! # Growing a page -/

namespace MallocSurvey.Gjalloc

variable {l ol : Layout} {p n first head stop fuel : Nat} {memory current : Words}
  {indices : List Nat} {tagged : Bool} {t : Option Nat}

theorem Layout.blockN_congr (sameSize : ol.blockSize = l.blockSize) : ol.blockN = l.blockN := by
  funext place i
  unfold Layout.blockN
  rw [sameSize]

theorem Chain.layout (sameSize : ol.blockSize = l.blockSize) :
    Chain ol p memory stop first indices ↔ Chain l p memory stop first indices := by
  induction indices generalizing first with
  | nil => exact Iff.rfl
  | cons i rest induction =>
      unfold Chain
      rw [induction, Layout.blockN_congr sameSize]

/-! ## The last link -/

/-- What a variable holds. -/
def readAt (head : Nat) (memory : Words) (t : Option Nat) : Nat :=
  match t with
  | none => head
  | some block => memory block

theorem storeAt_readAt (head : Nat) (memory : Words) (t : Option Nat) :
    storeAt head memory t (readAt head memory t) = (head, memory) := by
  cases t with
  | none => rfl
  | some block => exact congrArg _ (Function.update_eq_self block memory)

theorem relocateList_succ : relocateList p n (fuel + 1) head current t =
    if readAt head current t > baOne then
      relocateList p n fuel (storeAt head current t (readAt head current t + n - p)).1
        (storeAt head current t (readAt head current t + n - p)).2
        (some (readAt head current t + n - p))
    else some (head, current, t, readAt head current t) := by
  cases t with
  | none => rfl
  | some block => rfl

theorem lastLink_succ : lastLink current (fuel + 1) head t =
    if readAt head current t > baOne then lastLink current fuel head (some (readAt head current t))
    else some (t, readAt head current t) := by
  cases t with
  | none => rfl
  | some block => rfl

theorem rechain_cons (i : Nat) (rest : List Nat) : rechain l n head current t (i :: rest) =
    rechain l n (storeAt head current t (l.blockN n i)).1 (storeAt head current t (l.blockN n i)).2
      (some (l.blockN n i)) rest := rfl

/-- Relocation links the same blocks of the new page. -/
theorem relocateList_spec (valid : l.Valid) (chain : Chain l p memory stop first indices)
    (ends : stop ≤ baOne) (nodup : indices.Nodup)
    (moved : ∀ i ∈ indices, current (l.blockN n i) = memory (l.blockN p i))
    (fresh : ∀ c, t = some c → ∀ i ∈ indices, c ≠ l.blockN n i)
    (isFirst : readAt head current t = first) (enough : indices.length < fuel) :
    ∃ newHead newMemory last, rechain l n head current t indices = (newHead, newMemory, last) ∧
      readAt newHead newMemory last = stop ∧
      relocateList p n fuel head current t = some (newHead, newMemory, last, stop) := by
  obtain ⟨fuel, rfl⟩ := Nat.exists_eq_succ_of_ne_zero (Nat.ne_zero_of_lt enough)
  induction indices generalizing first head current t fuel with
  | nil =>
      have isStop : readAt head current t = stop := isFirst.trans chain
      refine ⟨head, current, t, rfl, isStop, ?_⟩
      rw [relocateList_succ, isStop, if_neg (Nat.not_lt.mpr ends)]
  | cons i rest induction =>
      obtain ⟨fuel, rfl⟩ := Nat.exists_eq_succ_of_ne_zero
        (show fuel ≠ 0 by rw [List.length_cons] at enough; omega)
      obtain ⟨notMember, restNodup⟩ := List.nodup_cons.mp nodup
      have isBlock : readAt head current t = l.blockN p i := isFirst.trans chain.1
      have relocated : l.blockN p i + n - p = l.blockN n i := by
        unfold Layout.blockN
        omega
      rw [relocateList_succ, isBlock, if_pos (Layout.one_lt_blockN l p i), relocated, rechain_cons]
      have kept : ∀ j ∈ i :: rest,
          (storeAt head current t (l.blockN n i)).2 (l.blockN n j) = memory (l.blockN p j) := by
        intro j member
        cases t with
        | none => exact moved j member
        | some c =>
            have other := fresh c rfl j member
            exact (Function.update_of_ne (Ne.symm other) _ _).trans (moved j member)
      exact induction chain.2 restNodup (fun j member => kept j (List.mem_cons_of_mem _ member))
        (by
          rintro c ⟨⟩ j member same
          exact notMember ((Layout.blockN_inj valid).mp same ▸ member))
        (show readAt _ _ (some (l.blockN n i)) = memory first from
          (kept i List.mem_cons_self).trans (congrArg memory chain.1.symm))
        fuel (Nat.lt_of_succ_lt_succ enough)

/-- A chain that is linked already stays as it is. -/
theorem lastLink_spec (chain : Chain l p memory stop first indices) (ends : stop ≤ baOne)
    (isFirst : readAt head memory t = first) (enough : indices.length < fuel) :
    ∃ last, rechain l p head memory t indices = (head, memory, last) ∧
      readAt head memory last = stop ∧ lastLink memory fuel head t = some (last, stop) := by
  obtain ⟨fuel, rfl⟩ := Nat.exists_eq_succ_of_ne_zero (Nat.ne_zero_of_lt enough)
  induction indices generalizing first t fuel with
  | nil =>
      have isStop : readAt head memory t = stop := isFirst.trans chain
      refine ⟨t, rfl, isStop, ?_⟩
      rw [lastLink_succ, isStop, if_neg (Nat.not_lt.mpr ends)]
  | cons i rest induction =>
      obtain ⟨fuel, rfl⟩ := Nat.exists_eq_succ_of_ne_zero
        (show fuel ≠ 0 by rw [List.length_cons] at enough; omega)
      have isBlock : readAt head memory t = l.blockN p i := isFirst.trans chain.1
      rw [lastLink_succ, isBlock, if_pos (Layout.one_lt_blockN l p i), rechain_cons, ← isBlock,
        storeAt_readAt, isBlock]
      exact induction chain.2
        (show readAt head memory (some (l.blockN p i)) = memory first from
          congrArg memory chain.1.symm) fuel
        (Nat.lt_of_succ_lt_succ enough)

/-! ## The new blocks -/

/-- The list with the first new block, unless it has a tag. -/
def grownList (blocks : Nat) (indices : List Nat) (tagged : Bool) : List Nat :=
  if tagged then indices else indices ++ [blocks]

theorem freeSet_grown {blocks newBlocks : Nat} (bound : ∀ i ∈ indices, i < blocks)
    (atLeast : blocks ≤ newBlocks) (nonempty : tagged = true → indices ≠ [])
    (room : tagged = true ∨ blocks < newBlocks) :
    freeSet newBlocks (grownList blocks indices tagged) true =
      freeSet blocks indices tagged ∪ Finset.Ico blocks newBlocks := by
  ext i
  rw [Finset.mem_union, Finset.mem_Ico]
  cases tagged with
  | false =>
      have below : ∀ j ∈ indices ++ [blocks], j < newBlocks := by
        intro j member
        rcases List.mem_append.mp member with isOld | isNew
        · exact Nat.lt_of_lt_of_le (bound j isOld) atLeast
        · exact List.mem_singleton.mp isNew ▸ room.resolve_left (by decide)
      exact (mem_freeSet_snoc below).trans
        (or_congr_left (mem_freeSet_untagged bound).symm)
  | true =>
      obtain ⟨last, isLast⟩ := Option.ne_none_iff_exists'.mp
        (fun isNone => nonempty rfl (List.getLast?_eq_none_iff.mp isNone))
      have inRange := bound last (List.mem_of_getLast? isLast)
      show i ∈ freeSet newBlocks indices true ↔ _
      rw [mem_freeSet, mem_freeSet, isLast]
      constructor
      · rintro ⟨inNew, member | ⟨_, _, ⟨⟩, above⟩⟩
        · exact .inl ⟨bound i member, .inl member⟩
        · by_cases isOld : i < blocks
          · exact .inl ⟨isOld, .inr ⟨rfl, last, rfl, above⟩⟩
          · exact .inr ⟨Nat.le_of_not_lt isOld, inNew⟩
      · rintro (⟨isOld, free⟩ | ⟨isNew, inNew⟩)
        · exact ⟨Nat.lt_of_lt_of_le isOld atLeast, free⟩
        · exact ⟨inNew, .inr ⟨rfl, last, rfl, by omega⟩⟩

theorem mem_grownList {blocks i : Nat} :
    i ∈ grownList blocks indices tagged ↔ i ∈ indices ∨ tagged = false ∧ i = blocks := by
  cases tagged with
  | false => simp [grownList]
  | true => simp [grownList]

/-- Without room for a new block the tag is written behind the page. -/
theorem appendNew_spec (oldValid : ol.Valid) (valid : l.Valid)
    (sameSize : ol.blockSize = l.blockSize) (atLeast : ol.blocks ≤ l.blocks)
    (bound : ∀ i ∈ indices, i < ol.blocks) (nodup : indices.Nodup)
    {headMid : Nat} {memoryMid : Words} {last : Option Nat}
    (isLast : rechain l n head current none indices = (headMid, memoryMid, last))
    (isEnd : readAt headMid memoryMid last = endOf tagged) :
    if tagged = true ∨ ol.blocks < l.blocks then
      ∃ newHead newMemory,
        appendNew ol l n headMid memoryMid last (endOf tagged) = some (newHead, newMemory) ∧
        Chain l n newMemory baOne newHead (grownList ol.blocks indices tagged) ∧
        ∀ place, (∀ i ∈ grownList ol.blocks indices tagged, place ≠ l.blockN n i) →
          newMemory place = current place
    else appendNew ol l n headMid memoryMid last (endOf tagged) = none := by
  obtain ⟨last', memoryMid', headMid', newHead, newMemory, isRechain, isStore, linked, _, frame⟩ :=
    @rechain_spec l n current indices valid head none nodup (fun c impossible => by
      cases impossible) (if tagged then baOne else l.blockN n ol.blocks)
  rw [isLast] at isRechain
  cases isRechain
  have outside : ∀ place, (∀ i ∈ indices, place ≠ l.blockN n i) →
      newMemory place = current place := by
    intro place away
    exact frame place (fun impossible => by cases impossible) away
  cases tagged with
  | true =>
      rw [if_pos (.inl rfl)]
      have same := storeAt_readAt headMid memoryMid last
      rw [isEnd, show endOf true = if true then baOne else l.blockN n ol.blocks from rfl,
        isStore] at same
      cases same
      exact ⟨headMid, memoryMid, rfl, linked rfl, outside⟩
  | false =>
      have newBlock : n + ol.pageSize = l.blockN n ol.blocks := by
        rw [Layout.pageEnd oldValid, Layout.blockN_congr sameSize]
      have isAppend : appendNew ol l n headMid memoryMid last (endOf false) =
          (storeNext l n newMemory (l.blockN n ol.blocks) baOne).bind fun memory =>
            some (newHead, memory) := by
        have isNull : endOf false = 0 := rfl
        rw [appendNew, if_pos isNull, newBlock]
        dsimp only
        rw [show storeAt headMid memoryMid last (l.blockN n ol.blocks) = (newHead, newMemory)
          from isStore]
        rfl
      rw [isAppend]
      by_cases room : ol.blocks < l.blocks
      · rw [if_pos (.inr room), storeNext, if_pos (Layout.blockN_inside valid room)]
        refine ⟨newHead, _, rfl, ?_, ?_⟩
        · have notMember : ol.blocks ∉ indices := fun member =>
            Nat.lt_irrefl _ (bound _ member)
          have kept := (linked rfl).congr (fun i member => by
            exact @Function.update_of_ne _ _ _ (l.blockN n i) (l.blockN n ol.blocks) (fun same =>
              notMember ((Layout.blockN_inj valid).mp same ▸ member)) baOne newMemory)
          have linkedAll := Chain.snoc kept
          rwa [Function.update_self] at linkedAll
        · intro place away
          have notNew := away ol.blocks (mem_grownList.mpr (.inr ⟨rfl, rfl⟩))
          rw [Function.update_of_ne notNew]
          exact outside place fun i member => away i (mem_grownList.mpr (.inl member))
      · rw [if_neg (by simpa using room), storeNext, if_neg]
        · rfl
        · rintro ⟨_, inside⟩
          rw [Layout.pageEnd valid, show ol.blocks = l.blocks by omega] at inside
          exact absurd inside (by unfold blockHeaderSize; omega)

end MallocSurvey.Gjalloc
