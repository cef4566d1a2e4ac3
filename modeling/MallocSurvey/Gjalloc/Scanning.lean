import MallocSurvey.Gjalloc.HandingOut

/-! # The reads of `bv_ctz`

A bit vector has the words of its allocation, and a read behind them is a fault (`none`). The
word behind the last bit is read before the length is tested again. -/

namespace MallocSurvey.Gjalloc

variable {l : Layout} {p first bvLength words length : Nat} {memory : Words}
  {indices : List Nat} {tagged : Bool} {v : Nat → Bool}

/-- The loop over the words of a vector. -/
def ctzWithin (bvLength words : Nat) (v : Nat → Bool) (length : Nat) :
    Nat → Nat → Nat → Option (Option Nat)
  | 0, _, _ => none
  | fuel + 1, c, low =>
      if words ≤ c then none
      else
        match wordCtz bvLength v c low with
        | some bit =>
            some (if c * bvLength + bit ≥ length then none else some (c * bvLength + bit))
        | none =>
            if c * bvLength ≥ length then some none
            else ctzWithin bvLength words v length fuel (c + 1) 0

def bvCtzWithin (bvLength words : Nat) (v : Nat → Bool) (length n : Nat) :
    Option (Option Nat) :=
  ctzWithin bvLength words v length (length + 1) (n / bvLength) (n % bvLength)

/-- The calls of `bv_ctz` from `j` on. -/
def ctzScan (bvLength words : Nat) (v : Nat → Bool) (length : Nat) :
    Nat → Nat → Option (List Nat)
  | 0, _ => none
  | fuel + 1, j => do
      let found ← bvCtzWithin bvLength words v length j
      match found with
      | none => return []
      | some i =>
          let rest ← ctzScan bvLength words v length fuel (i + 1)
          return i :: rest

/-- The blocks that `ba_sort_list` passes. -/
def scanList (bvLength : Nat) (l : Layout) (p b : Nat) (memory : Words) :
    Option (List Nat) := do
  let bytes := bvByteLength bvLength l.blocks
  let (length, v) ← markBlocks bytes l p memory (l.blocks + 2) b l.blocks fun _ => false
  let length := if length ≠ 0 then stripBits v (length - 1) + 1 else length
  ctzScan bvLength (8 * bytes / bvLength) v length (length + 1) 0

/-! ## One call -/

theorem ctzWithin_some {fuel c low : Nat} {found : Option Nat}
    (isFound : ctzWithin bvLength words v length fuel c low = some found) :
    ctzLoop bvLength v length fuel c low = found := by
  induction fuel generalizing c low with
  | zero => cases isFound
  | succ fuel induction =>
      rw [ctzWithin] at isFound
      rw [ctzLoop]
      by_cases beyond : words ≤ c
      · rw [if_pos beyond] at isFound
        cases isFound
      · rw [if_neg beyond] at isFound
        cases inWord : wordCtz bvLength v c low with
        | some bit =>
            rw [inWord] at isFound
            exact Option.some.inj isFound
        | none =>
            rw [inWord] at isFound
            dsimp only at isFound ⊢
            by_cases done : c * bvLength ≥ length
            · rw [if_pos done] at isFound ⊢
              exact Option.some.inj isFound
            · rw [if_neg done] at isFound ⊢
              exact induction isFound

theorem bvCtzWithin_spec (positive : 0 < bvLength) {n : Nat} {found : Option Nat}
    (isFound : bvCtzWithin bvLength words v length n = some found) :
    FirstBit v length n found := by
  have isLoop : bvCtz bvLength v length n = found := ctzWithin_some isFound
  rw [← isLoop]
  exact bvCtz_spec positive v length n

/-- A bit at the length ends the walk in its word. -/
theorem ctzWithin_of_bit {fuel c low : Nat} (positive : 0 < bvLength)
    (isBit : v length = true) (start : c * bvLength + low ≤ length)
    (inside : length < words * bvLength) (enough : length < fuel + c) :
    ∃ found, ctzWithin bvLength words v length fuel c low = some found := by
  have atMost : c ≤ c * bvLength := Nat.le_mul_of_pos_right c positive
  induction fuel generalizing c low with
  | zero => omega
  | succ fuel induction =>
      have isWord : ¬ words ≤ c := by
        intro beyond
        have product := Nat.mul_le_mul_right bvLength beyond
        omega
      rw [ctzWithin, if_neg isWord]
      cases inWord : wordCtz bvLength v c low with
      | some bit => exact ⟨_, rfl⟩
      | none =>
          dsimp only
          by_cases done : c * bvLength ≥ length
          · exact ⟨none, if_pos done⟩
          · have next : (c + 1) * bvLength ≤ length := by
              by_contra above
              have isZero := wordCtz_none inWord (length - c * bvLength) (by omega) (by
                rw [Nat.succ_mul] at above
                omega)
              rw [Nat.add_sub_of_le (by omega), isBit] at isZero
              cases isZero
            rw [if_neg done]
            apply induction
            · omega
            · omega
            · exact Nat.le_mul_of_pos_right _ positive

/-- A word behind those of the bits ends the walk. -/
theorem ctzWithin_of_room {fuel c low : Nat} (positive : 0 < bvLength)
    (start : c * bvLength < length + bvLength)
    (room : length + bvLength ≤ words * bvLength) (enough : length < fuel + c)
    (nonempty : 0 < fuel) :
    ∃ found, ctzWithin bvLength words v length fuel c low = some found := by
  induction fuel generalizing c low with
  | zero => exact absurd nonempty (Nat.lt_irrefl 0)
  | succ fuel induction =>
      have isWord : ¬ words ≤ c := by
        intro beyond
        have product := Nat.mul_le_mul_right bvLength beyond
        omega
      rw [ctzWithin, if_neg isWord]
      cases inWord : wordCtz bvLength v c low with
      | some bit => exact ⟨_, rfl⟩
      | none =>
          dsimp only
          by_cases done : c * bvLength ≥ length
          · exact ⟨none, if_pos done⟩
          · have atMost : c ≤ c * bvLength := Nat.le_mul_of_pos_right c positive
            rw [if_neg done]
            apply induction
            · rw [Nat.succ_mul]
              omega
            · omega
            · omega

/-- Without a bit the walk reads the word behind the last one. -/
theorem ctzWithin_none {fuel c low : Nat} (inWord : low < bvLength)
    (noBit : ∀ k, c * bvLength + low ≤ k → v k = false)
    (full : words * bvLength < length + bvLength) :
    ctzWithin bvLength words v length fuel c low = none := by
  induction fuel generalizing c low with
  | zero => rfl
  | succ fuel induction =>
      rw [ctzWithin]
      by_cases beyond : words ≤ c
      · exact if_pos beyond
      · have isZero : wordCtz bvLength v c low = none := by
          cases inWord : wordCtz bvLength v c low with
          | none => rfl
          | some bit =>
              obtain ⟨above, _, isBit, _⟩ := wordCtz_some inWord
              rw [noBit _ (by omega)] at isBit
              cases isBit
        have more : ¬ c * bvLength ≥ length := by
          have product := Nat.mul_le_mul_right bvLength (Nat.succ_le_of_lt (Nat.lt_of_not_le beyond))
          rw [Nat.succ_mul] at product
          omega
        rw [if_neg beyond, isZero]
        dsimp only
        rw [if_neg more]
        apply induction
        · exact Nat.zero_lt_of_lt inWord
        · intro k above
          rw [Nat.succ_mul] at above
          exact noBit k (by omega)

/-! ## The scan -/

theorem ctzScan_some (positive : 0 < bvLength)
    (reads : ∀ n ≤ length, ∃ found, bvCtzWithin bvLength words v length n = some found)
    {fuel j : Nat} (inRange : j ≤ length) (enough : length < fuel + j) :
    ∃ positions, ctzScan bvLength words v length fuel j = some positions := by
  induction fuel generalizing j with
  | zero => omega
  | succ fuel induction =>
      obtain ⟨found, isFound⟩ := reads j inRange
      have first := bvCtzWithin_spec positive isFound
      rw [ctzScan, isFound]
      cases found with
      | none => exact ⟨[], rfl⟩
      | some i =>
          obtain ⟨above, below, _, _⟩ := first
          obtain ⟨rest, isRest⟩ := @induction (i + 1) below (by omega)
          refine ⟨i :: rest, ?_⟩
          dsimp only [Option.bind_eq_bind, Option.bind_some]
          rw [isRest]
          rfl

theorem ctzScan_none (positive : 0 < bvLength) (noBit : ∀ k, length ≤ k → v k = false)
    (full : words * bvLength < length + bvLength) (fuel j : Nat) :
    ctzScan bvLength words v length fuel j = none := by
  induction fuel generalizing j with
  | zero => rfl
  | succ fuel induction =>
      rw [ctzScan]
      cases isFound : bvCtzWithin bvLength words v length j with
      | none => rfl
      | some found =>
          have first := bvCtzWithin_spec positive isFound
          cases found with
          | none =>
              have noMore : ∀ k, j / bvLength * bvLength + j % bvLength ≤ k → v k = false := by
                intro k above
                rw [Nat.div_add_mod'] at above
                by_cases below : k < length
                · exact first k above below
                · exact noBit k (Nat.le_of_not_lt below)
              have isNone := @ctzWithin_none bvLength words length v (length + 1) (j / bvLength)
                (j % bvLength) (Nat.mod_lt j positive) noMore full
              unfold bvCtzWithin at isFound
              rw [isNone] at isFound
              cases isFound
          | some i =>
              dsimp only [Option.bind_eq_bind, Option.bind_some]
              rw [induction (i + 1)]
              rfl

/-- The allocation of a bit vector has whole words. -/
theorem bvByteLength_dvd (positive : 0 < bvLength) (length : Nat) :
    bvLength ∣ bvByteLength bvLength length := by
  obtain ⟨bytes, isBytes⟩ : ∃ bytes,
      length / 8 + (if length % 8 ≠ 0 then 1 else 0) = bytes := ⟨_, rfl⟩
  unfold bvByteLength
  rw [isBytes]
  dsimp only
  split
  · have below := Nat.mod_lt bytes positive
    have isDivMod := Nat.div_add_mod bytes bvLength
    have isNext : bytes + (bvLength - bytes % bvLength) = bvLength * (bytes / bvLength + 1) := by
      rw [Nat.mul_succ]
      omega
    exact ⟨_, isNext⟩
  · rename_i isWhole
    exact Nat.dvd_of_mod_eq_zero (not_not.mp isWhole)

theorem bvByteLength_words (positive : 0 < bvLength) (length : Nat) :
    8 * bvByteLength bvLength length / bvLength * bvLength = 8 * bvByteLength bvLength length :=
  Nat.div_mul_cancel (Nat.dvd_mul_left_of_dvd (bvByteLength_dvd positive length) 8)

theorem le_bvByteLength (positive : 0 < bvLength) (nonempty : 0 < l.blocks) :
    bvLength ≤ bvByteLength bvLength l.blocks := by
  have room := @room_of_lt l bvLength 0 positive nonempty
  exact Nat.le_of_dvd (by omega) (bvByteLength_dvd positive l.blocks)

theorem FreeList.scanList_eq (valid : l.Valid) (positive : 0 < bvLength)
    (list : FreeList l p memory first indices tagged) :
    scanList bvLength l p first memory =
      ctzScan bvLength (8 * bvByteLength bvLength l.blocks / bvLength) (bitsOf indices)
        (lengthOf l.blocks (endOf tagged) indices)
        (lengthOf l.blocks (endOf tagged) indices + 1) 0 := by
  have blocks := valid.blocks
  have nonempty : endOf tagged = baOne → indices ≠ [] := by
    intro isOne
    obtain ⟨others, last, isList, _⟩ := list.tag (endOf_inj isOne)
    simp [isList]
  have enough : indices.length < l.blocks + 2 := by
    have length := length_le_of_nodup list.nodup list.bound
    omega
  have marked := markBlocks_some valid list.chain (endOf_le _) nonempty
    (fun i member => room_of_lt positive (list.bound i member)) enough l.blocks fun _ => false
  simp only [Bool.false_or] at marked
  obtain ⟨length, isLength⟩ : ∃ length,
      (if endOf tagged = baOne then indices.getLastD 0 + 1 else l.blocks) = length := ⟨_, rfl⟩
  have notZero : length ≠ 0 := by
    rw [← isLength]
    split
    · omega
    · omega
  rw [isLength] at marked
  have marks : markBlocks (bvByteLength bvLength l.blocks) l p memory (l.blocks + 2) first
      l.blocks (fun _ => false) = some (length, bitsOf indices) := marked
  have isStripped : lengthOf l.blocks (endOf tagged) indices =
      stripBits (bitsOf indices) (length - 1) + 1 := by
    unfold lengthOf
    rw [isLength]
  unfold scanList
  dsimp only
  rw [marks, isStripped]
  dsimp only [Option.bind_eq_bind, Option.bind_some]
  rw [if_pos notZero]

/-- The blocks that are stripped begin with a bit. -/
theorem bitsOf_lengthOf {blocks stop : Nat}
    (isBit : bitsOf indices ((if stop = baOne then indices.getLastD 0 + 1 else blocks) - 1)) :
    lengthOf blocks stop indices = 1 ∨
      bitsOf indices (lengthOf blocks stop indices) = true := by
  unfold lengthOf
  obtain ⟨top, isTop⟩ : ∃ top,
      (if stop = baOne then indices.getLastD 0 + 1 else blocks) - 1 = top := ⟨_, rfl⟩
  rw [isTop] at isBit ⊢
  obtain ⟨below, set, last⟩ := stripBits_spec (bitsOf indices) top
  rcases Nat.lt_or_eq_of_le below with stripped | same
  · exact .inr (set _ (Nat.lt_succ_self _) stripped)
  · rw [same] at last ⊢
    rcases last with isZero | notBit
    · exact .inl (congrArg (· + 1) isZero)
    · rw [isBit] at notBit
      cases notBit

theorem FreeList.scan_some (valid : l.Valid) (positive : 0 < bvLength)
    (list : FreeList l p memory first indices tagged)
    (safe : l.blocks - 1 ∈ freeSet l.blocks indices tagged ∨
      l.blocks + bvLength ≤ 8 * bvByteLength bvLength l.blocks) :
    ∃ positions, scanList bvLength l p first memory = some positions := by
  have blocks := valid.blocks
  have isWords := bvByteLength_words positive l.blocks
  have words := le_bvByteLength positive blocks
  obtain ⟨_, atMost, _⟩ := list.lengthOf_spec valid
  have inside : lengthOf l.blocks (endOf tagged) indices = 1 ∨
      bitsOf indices (lengthOf l.blocks (endOf tagged) indices) = true ∨
      l.blocks + bvLength ≤ 8 * bvByteLength bvLength l.blocks := by
    rcases safe with isFree | room
    · have isBit : bitsOf indices
          ((if endOf tagged = baOne then indices.getLastD 0 + 1 else l.blocks) - 1) = true := by
        cases tagged with
        | false =>
            rw [if_neg (by decide)]
            exact decide_eq_true ((mem_freeSet_untagged list.bound).mp isFree)
        | true =>
            obtain ⟨last, _, isLast, _, _, member⟩ := list.getLastD_eq
            have isTag : endOf true = baOne := rfl
            rw [if_pos isTag, isLast]
            exact decide_eq_true member
      rcases bitsOf_lengthOf isBit with isOne | isSet
      · exact .inl isOne
      · exact .inr (.inl isSet)
    · exact .inr (.inr room)
  have bitRoom : ∀ i, bitsOf indices i = true → i < 8 * bvByteLength bvLength l.blocks :=
    fun i isBit => room_of_lt positive (list.bound i (of_decide_eq_true isBit))
  rw [list.scanList_eq valid positive]
  generalize lengthOf l.blocks (endOf tagged) indices = length at atMost inside ⊢
  apply ctzScan_some positive
  · intro n inRange
    have start : n / bvLength * bvLength + n % bvLength ≤ length := by
      rw [Nat.div_add_mod']
      exact inRange
    have enough : length < length + 1 + n / bvLength :=
      Nat.lt_add_right _ (Nat.lt_succ_self length)
    have nonempty : 0 < length + 1 := Nat.succ_pos length
    rcases inside with isOne | isBit | room
    · exact ctzWithin_of_room positive (by omega) (by omega) enough nonempty
    · have isRoom := bitRoom length isBit
      rw [← isWords] at isRoom
      exact ctzWithin_of_bit positive isBit start isRoom enough
    · exact ctzWithin_of_room positive (by omega) (by omega) enough nonempty
  · exact Nat.zero_le _
  · exact Nat.lt_succ_self _

theorem FreeList.scan_none (valid : l.Valid) (positive : 0 < bvLength)
    (list : FreeList l p memory first indices tagged)
    (notFree : l.blocks - 1 ∉ freeSet l.blocks indices tagged)
    (full : 8 * bvByteLength bvLength l.blocks < l.blocks + bvLength) :
    scanList bvLength l p first memory = none := by
  have blocks := valid.blocks
  obtain ⟨_, atMost, stripped, _⟩ := list.lengthOf_spec valid
  have isAll : lengthOf l.blocks (endOf tagged) indices = l.blocks := by
    by_contra less
    exact notFree (stripped (l.blocks - 1) (by omega) (by omega))
  rw [list.scanList_eq valid positive, isAll]
  apply ctzScan_none positive
  · intro k beyond
    apply decide_eq_false
    intro member
    have below := list.bound k member
    omega
  · rw [bvByteLength_words positive]
    exact full

/-- A call of `bv_ctz` that stays in the vector finds the first bit, and the scan of
`ba_sort_list` stays in its vector if the last block is free or a word is to spare. -/
theorem scanList_inside_iff (valid : l.Valid) (positive : 0 < bvLength)
    (list : FreeList l p memory first indices tagged) :
    ((∃ positions, scanList bvLength l p first memory = some positions) ∧
      ∀ words v length n found, bvCtzWithin bvLength words v length n = some found →
        FirstBit v length n found) ↔
    l.blocks - 1 ∈ freeSet l.blocks indices tagged ∨
      l.blocks + bvLength ≤ 8 * bvByteLength bvLength l.blocks := by
  constructor
  · rintro ⟨⟨positions, isScan⟩, _⟩
    by_contra neither
    obtain ⟨notFree, full⟩ := not_or.mp neither
    rw [list.scan_none valid positive notFree (Nat.lt_of_not_le full)] at isScan
    cases isScan
  · intro safe
    refine ⟨list.scan_some valid positive safe, ?_⟩
    intro words v length n found isFound
    exact bvCtzWithin_spec positive isFound

theorem scanList_inside_three :
    ((∃ positions, scanList 64 ⟨56, 8, 3⟩ 0 48 (fun _ => 0) = some positions) ∧
      ∀ words v length n found, bvCtzWithin 64 words v length n = some found →
        FirstBit v length n found) ↔
    2 ∈ freeSet 3 [1] false ∨ 3 + 64 ≤ 8 * bvByteLength 64 3 :=
  scanList_inside_iff (l := ⟨56, 8, 3⟩) ⟨rfl, by decide, by decide⟩ (by decide)
    ⟨⟨rfl, rfl⟩, by decide, by decide, fun isTrue => absurd isTrue Bool.false_ne_true⟩

/-- A page of 512 blocks that are all used. -/
theorem scanList_outside_full : ∃ (l : Layout) (p first : Nat) (memory : Words)
    (indices : List Nat) (tagged : Bool), l.Valid ∧
      FreeList l p memory first indices tagged ∧ scanList 64 l p first memory = none := by
  have valid : Layout.Valid ⟨40 + 511 * 8, 8, 512⟩ := ⟨rfl, by decide, by decide⟩
  have list : FreeList ⟨40 + 511 * 8, 8, 512⟩ 4096 (fun _ => 0) 0 [] false :=
    ⟨rfl, fun i member => absurd member List.not_mem_nil, List.nodup_nil,
      fun isTrue => absurd isTrue Bool.false_ne_true⟩
  refine ⟨_, _, _, _, _, _, valid, list, ?_⟩
  apply list.scan_none valid (by decide)
  · rw [mem_freeSet_untagged list.bound]
    exact List.not_mem_nil
  · decide

end MallocSurvey.Gjalloc
