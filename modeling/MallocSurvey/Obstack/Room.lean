import MallocSurvey.Obstack.Steps

/-! # The room of an object

The space check is made in machine arithmetic, and objects are aligned behind a header of
fixed size. -/

namespace MallocSurvey.Obstack

open Library

variable {env : Environment} {state : State} {stack : BasicObstack} {chunks : List Chunk}
  {type : ElementType} {numElements : Nat}

/-- All elements lie in the buffer, and their header is above everything allocated before. -/
structure Placed (env : Environment) (stack : BasicObstack) (chunks : List Chunk)
    (type : ElementType) (numElements p : Nat) : Prop where
  inside : stack.mem ≤ p ∧ p + type.size * numElements ≤ stack.endOfMem
  above : stack.tos + env.headerSize ≤ p ∧
    ∀ chunk ∈ chunks, chunk.header + (env.headerSize + chunk.size) ≤ p
  aligned : type.align ∣ p

/-- The end of the object does not wrap around, and its header keeps the alignment. -/
def Placeable (env : Environment) (state : State) (type : ElementType) (numElements : Nat) :
    Prop :=
  Fits env state type numElements ∧ type.align ∣ env.headerSize

/-- What alignments are. -/
def IsAlign (align : Nat) : Prop := ∃ power < 64, align = 2 ^ power

theorem offsetToAlignment_spec (address : Nat) {alignTo : Nat} (positive : 0 < alignTo) :
    offsetToAlignment address alignTo < alignTo ∧
      alignTo ∣ address + offsetToAlignment address alignTo := by
  have rest := Nat.mod_lt address positive
  have isDivMod := Nat.div_add_mod address alignTo
  unfold offsetToAlignment
  split
  · refine ⟨by omega, address / alignTo + 1, ?_⟩
    rw [Nat.mul_succ]
    omega
  · rename_i isZero
    exact ⟨positive, Nat.dvd_of_mod_eq_zero (not_not.mp isZero)⟩

theorem alignment_pos (type : ElementType) : 0 < alignment type := by
  unfold alignment
  split
  · omega
  · omega

theorem alignment_spec (isAlign : IsAlign type.align) :
    IsAlign (alignment type) ∧ type.align ∣ alignment type := by
  unfold alignment
  by_cases large : type.align > 8
  · rw [if_pos large]
    exact ⟨isAlign, Nat.dvd_refl _⟩
  · rw [if_neg large]
    obtain ⟨power, small, isPower⟩ := isAlign
    have atMost : power ≤ 3 := by
      by_contra more
      have above : 2 ^ 4 ≤ 2 ^ power := Nat.pow_le_pow_right (by decide) (by omega)
      omega
    refine ⟨⟨3, by decide, rfl⟩, ?_⟩
    rw [isPower]
    exact Nat.pow_dvd_pow 2 atMost

/-- The header of a chunk is aligned, also if its address wraps around. -/
theorem dvd_chead (isAlign : IsAlign type.align) (tos : Nat) :
    type.align ∣ (tos + offsetToAlignment tos (alignment type)) % 2 ^ 64 := by
  obtain ⟨⟨power, small, isPower⟩, divides⟩ := alignment_spec isAlign
  have whole : alignment type ∣ 2 ^ 64 := isPower ▸ Nat.pow_dvd_pow 2 (Nat.le_of_lt small)
  have isMultiple := (offsetToAlignment_spec tos (alignment_pos type)).2
  exact Nat.dvd_trans divides ((Nat.dvd_mod_iff whole).mpr isMultiple)

theorem alloc_ptr (stack : BasicObstack) (type : ElementType) :
    (stack.alloc env type).1 = if stack.memAvailable env type 1 then
      (stack.tos + offsetToAlignment stack.tos (alignment type)) % 2 ^ 64 + env.headerSize
    else 0 := by
  unfold BasicObstack.alloc
  split
  · rfl
  · rfl

theorem allocArray_ptr (stack : BasicObstack) (type : ElementType) (numElements : Nat) :
    (stack.allocArray env type numElements).1 = if stack.memAvailable env type numElements then
      (stack.tos + offsetToAlignment stack.tos (alignment type)) % 2 ^ 64 + env.headerSize
    else 0 := by
  unfold BasicObstack.allocArray
  dsimp only
  split
  · rfl
  · rfl

/-- What is behind a header that was found available. -/
theorem placed_iff (rep : Rep env state.stack chunks) (isAlign : IsAlign type.align)
    (available : state.stack.memAvailable env type numElements = true) :
    Placed env state.stack chunks type numElements
        ((state.stack.tos + offsetToAlignment state.stack.tos (alignment type)) % 2 ^ 64 +
          env.headerSize) ↔
      Placeable env state type numElements := by
  have tosLe := rep.tos_le
  have endLt := rep.end_lt
  have memLe := rep.stacked.mem_le
  have memPos := rep.mem_pos
  have isMultiple := dvd_chead isAlign state.stack.tos
  constructor
  · rintro ⟨⟨_, inside⟩, ⟨above, _⟩, aligned⟩
    have small : state.stack.tos + offsetToAlignment state.stack.tos (alignment type) <
        2 ^ 64 := by
      by_contra wraps
      have padding := (offsetToAlignment_spec state.stack.tos (alignment_pos type)).1
      obtain ⟨power, below, isPower⟩ := (alignment_spec isAlign).1
      have atMost : 2 ^ power < 2 ^ 64 := Nat.pow_lt_pow_right (by decide) below
      omega
    rw [Nat.mod_eq_of_lt small] at inside
    refine ⟨Nat.lt_of_le_of_lt inside endLt, ?_⟩
    exact (Nat.dvd_add_right isMultiple).mp aligned
  · rintro ⟨fits, divides⟩
    have room := memAvailable_le available fits
    rw [Nat.mod_eq_of_lt (by omega)] at isMultiple ⊢
    refine ⟨⟨by omega, room⟩, ⟨by omega, ?_⟩, Nat.dvd_add isMultiple divides⟩
    intro chunk member
    have bounds := rep.stacked.bounds member
    omega

theorem result_iff {p : Nat} (rep : Rep env state.stack chunks) (isAlign : IsAlign type.align)
    (isPtr : p = if state.stack.memAvailable env type numElements then
      (state.stack.tos + offsetToAlignment state.stack.tos (alignment type)) % 2 ^ 64 +
        env.headerSize
      else 0) :
    (p ≠ 0 → Placed env state.stack chunks type numElements p) ↔
      (state.stack.memAvailable env type numElements = true →
        Placeable env state type numElements) := by
  by_cases available : state.stack.memAvailable env type numElements = true
  · have header := sizeofChunkHeader_le env
    unfold sizeofChunkHeader at header
    rw [if_pos available] at isPtr
    have notNull : p ≠ 0 := by omega
    have isPlaced := placed_iff rep isAlign available
    rw [← isPtr] at isPlaced
    exact ⟨fun placed _ => isPlaced.mp (placed notNull), fun fits _ => isPlaced.mpr (fits available)⟩
  · rw [if_neg available] at isPtr
    exact ⟨fun _ isAvailable => absurd isAvailable available, fun _ notNull => absurd isPtr notNull⟩

/-- A result of `alloc` or `alloc_array` that is not null is the place of all elements unless
the space check passes an end that wraps around or the header breaks the alignment. -/
theorem alloc_placed_iff (reachable : (machine env).Reachable (fun _ _ => True) state) :
    ∃ chunks, Inv env state chunks ∧ ∀ type numElements, IsAlign type.align →
      (((state.stack.alloc env type).1 ≠ 0 →
          Placed env state.stack chunks type 1 (state.stack.alloc env type).1) ↔
        (state.stack.memAvailable env type 1 = true → Placeable env state type 1)) ∧
      (((state.stack.allocArray env type numElements).1 ≠ 0 →
          Placed env state.stack chunks type numElements
            (state.stack.allocArray env type numElements).1) ↔
        (state.stack.memAvailable env type numElements = true →
          Placeable env state type numElements)) := by
  obtain ⟨chunks, inv⟩ := inv_reachable reachable
  refine ⟨chunks, inv, ?_⟩
  intro type numElements isAlign
  exact ⟨result_iff inv.rep isAlign (alloc_ptr _ _),
    result_iff inv.rep isAlign (allocArray_ptr _ _ _)⟩

/-- An empty stack of a page. -/
def sampleState : State := ⟨⟨0, 4096, 4096, 8192, fun _ => 0⟩, ⟨[], []⟩, 0⟩

theorem sampleState_init : Init sampleState :=
  ⟨4096, 8192, fun _ => 0, by decide, by decide, by decide, rfl⟩

theorem alloc_placed_sample : ∃ chunks, Inv sampleEnvironment sampleState chunks ∧
    ∀ type numElements, IsAlign type.align →
      (((sampleState.stack.alloc sampleEnvironment type).1 ≠ 0 →
          Placed sampleEnvironment sampleState.stack chunks type 1
            (sampleState.stack.alloc sampleEnvironment type).1) ↔
        (sampleState.stack.memAvailable sampleEnvironment type 1 = true →
          Placeable sampleEnvironment sampleState type 1)) ∧
      (((sampleState.stack.allocArray sampleEnvironment type numElements).1 ≠ 0 →
          Placed sampleEnvironment sampleState.stack chunks type numElements
            (sampleState.stack.allocArray sampleEnvironment type numElements).1) ↔
        (sampleState.stack.memAvailable sampleEnvironment type numElements = true →
          Placeable sampleEnvironment sampleState type numElements)) :=
  alloc_placed_iff (.init sampleState_init)

/-- 2^61 elements of 8 bytes are found available in a page. -/
theorem allocArray_wraps : (sampleState.stack.allocArray sampleEnvironment ⟨8, 8, 256⟩
      (2 ^ 61)).1 = 4128 ∧
    ∀ chunks, ¬ Placed sampleEnvironment sampleState.stack chunks ⟨8, 8, 256⟩ (2 ^ 61) 4128 := by
  refine ⟨by decide, ?_⟩
  rintro chunks ⟨⟨_, inside⟩, _, _⟩
  exact absurd inside (by decide)

/-! ## The capacity -/

/-- `max_align_t`, which is as large as its alignment. -/
def Environment.maxAlignType (env : Environment) : ElementType := ⟨env.maxAlign, env.maxAlign, 0⟩

def maxOverhead (env : Environment) (numElements : Nat) : Nat :=
  (env.headerSize + alignment env.maxAlignType) * numElements % 2 ^ 64

def toAllocCapacity (env : Environment) (capacityInBytes : Nat) : Nat :=
  capacityInBytes / env.maxAlignType.size +
    if capacityInBytes % env.maxAlignType.size ≠ 0 then 1 else 0

/-- The constructor for a capacity, with memory that the allocator has found at `mem`. -/
def BasicObstack.construct (env : Environment) (capacity mem : Nat) (memory : Memory) :
    BasicObstack :=
  ⟨0, mem, mem, mem + toAllocCapacity env capacity * env.maxAlignType.size, memory⟩

/-- The bytes of all objects. -/
def totalSize (types : List ElementType) : Nat := (types.map ElementType.size).sum

/-- No object gets null, and each lies in the buffer with its header above the ones before. -/
def AllocatesAll (env : Environment) : BasicObstack → List ElementType → Prop
  | _, [] => True
  | stack, type :: rest =>
      let (p, next) := stack.alloc env type
      p ≠ 0 ∧ stack.tos + env.headerSize ≤ p ∧ p + type.size ≤ stack.endOfMem ∧
        AllocatesAll env next rest

theorem toAllocCapacity_spec (env : Environment) (capacity : Nat) :
    capacity ≤ toAllocCapacity env capacity * env.maxAlign ∧
      toAllocCapacity env capacity * env.maxAlign < capacity + env.maxAlign := by
  have rest := Nat.mod_lt capacity env.maxAlign_pos
  have isDivMod := Nat.div_add_mod' capacity env.maxAlign
  have isCount : toAllocCapacity env capacity =
      capacity / env.maxAlign + if capacity % env.maxAlign ≠ 0 then 1 else 0 := rfl
  rw [isCount, Nat.add_mul]
  split
  · omega
  · omega

theorem maxAlign_dvd_headerSize (env : Environment) : env.maxAlign ∣ env.headerSize := by
  have isMultiple := (offsetToAlignment_spec sizeofChunkHeader env.maxAlign_pos).2
  unfold offsetToAlignment at isMultiple
  unfold Environment.headerSize
  split at isMultiple
  · rename_i isRest
    rw [if_pos isRest]
    exact isMultiple
  · rename_i isWhole
    rw [if_neg isWhole]
    exact isMultiple

theorem alignment_le_headerSize (env : Environment) :
    alignment env.maxAlignType ≤ env.headerSize := by
  have header := sizeofChunkHeader_le env
  unfold sizeofChunkHeader at header
  have atMost : env.maxAlign ≤ env.headerSize :=
    Nat.le_of_dvd (by omega) (maxAlign_dvd_headerSize env)
  unfold alignment Environment.maxAlignType
  dsimp only
  split
  · exact atMost
  · omega

theorem alignment_le (atMost : type.align ≤ env.maxAlign) :
    alignment type ≤ alignment env.maxAlignType := by
  unfold alignment Environment.maxAlignType
  dsimp only
  split
  · split
    · omega
    · omega
  · split
    · omega
    · omega

theorem totalSize_cons (type : ElementType) (rest : List ElementType) :
    totalSize (type :: rest) = type.size + totalSize rest := by
  unfold totalSize
  rw [List.map_cons, List.sum_cons]

theorem allocatesAll_cons {rest : List ElementType} :
    AllocatesAll env stack (type :: rest) ↔ (stack.alloc env type).1 ≠ 0 ∧
      stack.tos + env.headerSize ≤ (stack.alloc env type).1 ∧
      (stack.alloc env type).1 + type.size ≤ stack.endOfMem ∧
      AllocatesAll env (stack.alloc env type).2 rest := Iff.rfl

theorem alloc_tos (available : stack.memAvailable env type 1 = true) :
    (stack.alloc env type).2.tos = ((stack.alloc env type).1 + type.size) % 2 ^ 64 := by
  unfold BasicObstack.alloc
  rw [if_pos available]
  rfl

theorem alloc_endOfMem (stack : BasicObstack) (type : ElementType) :
    (stack.alloc env type).2.endOfMem = stack.endOfMem := by
  unfold BasicObstack.alloc
  split
  · rfl
  · rfl

/-- Room for all the sizes and the overhead is enough. -/
theorem allocatesAll_of_room {types : List ElementType} (endLt : stack.endOfMem < 2 ^ 64)
    (aligned : ∀ type ∈ types, type.align ≤ env.maxAlign)
    (room : stack.tos + totalSize types +
      (env.headerSize + alignment env.maxAlignType) * types.length ≤ stack.endOfMem) :
    AllocatesAll env stack types := by
  induction types generalizing stack with
  | nil => trivial
  | cons type rest induction =>
      have header := sizeofChunkHeader_le env
      unfold sizeofChunkHeader at header
      have padding := (offsetToAlignment_spec stack.tos (alignment_pos type)).1
      have alignLe := @alignment_le env type (aligned type List.mem_cons_self)
      rw [totalSize_cons, List.length_cons, Nat.mul_succ] at room
      obtain ⟨chead, isChead⟩ : ∃ chead,
          stack.tos + offsetToAlignment stack.tos (alignment type) = chead := ⟨_, rfl⟩
      have available : stack.memAvailable env type 1 = true := by
        unfold BasicObstack.memAvailable
        dsimp only
        rw [isChead, Nat.mul_one, Nat.mod_eq_of_lt (by omega)]
        exact decide_eq_true (by omega)
      have isPtr := @alloc_ptr env stack type
      rw [if_pos available, isChead, Nat.mod_eq_of_lt (by omega)] at isPtr
      have isTos := alloc_tos available
      have isEnd := @alloc_endOfMem env stack type
      rw [isPtr, Nat.mod_eq_of_lt (by omega)] at isTos
      rw [allocatesAll_cons, isPtr]
      refine ⟨by omega, by omega, by omega, ?_⟩
      apply induction
      · rw [isEnd]
        exact endLt
      · exact fun other member => aligned other (List.mem_cons_of_mem type member)
      · omega

/-- All objects with their headers lie in the buffer. -/
theorem room_of_allocatesAll {types : List ElementType} (endLt : stack.endOfMem < 2 ^ 64)
    (tosLe : stack.tos ≤ stack.endOfMem) (all : AllocatesAll env stack types) :
    stack.tos + totalSize types + env.headerSize * types.length ≤ stack.endOfMem := by
  induction types generalizing stack with
  | nil => exact tosLe
  | cons type rest induction =>
      obtain ⟨notNull, above, inside, others⟩ := allocatesAll_cons.mp all
      have isPtr := @alloc_ptr env stack type
      have available : stack.memAvailable env type 1 = true := by
        by_contra notAvailable
        rw [if_neg notAvailable] at isPtr
        exact notNull isPtr
      have isTos := alloc_tos available
      have isEnd := @alloc_endOfMem env stack type
      rw [Nat.mod_eq_of_lt (by omega)] at isTos
      have rest := induction (isEnd ▸ endLt) (by omega) others
      rw [totalSize_cons, List.length_cons, Nat.mul_succ]
      omega

/-- An overhead that wraps around is less than what the headers take. -/
theorem maxOverhead_wraps (isAlign : IsAlign env.maxAlign) {n : Nat}
    (wraps : 2 ^ 64 ≤ (env.headerSize + alignment env.maxAlignType) * n) :
    maxOverhead env n + env.maxAlign ≤ env.headerSize * n := by
  have fewer : alignment env.maxAlignType * n ≤ env.headerSize * n :=
    Nat.mul_le_mul_right n (alignment_le_headerSize env)
  have isLess : maxOverhead env n < env.headerSize * n := by
    unfold maxOverhead
    rw [Nat.add_mul] at wraps ⊢
    omega
  have isMultiple : env.maxAlign ∣ maxOverhead env n := by
    obtain ⟨power, small, isPower⟩ := isAlign
    have whole : env.maxAlign ∣ 2 ^ 64 := isPower ▸ Nat.pow_dvd_pow 2 (Nat.le_of_lt small)
    have isAlignment : env.maxAlign ∣ alignment env.maxAlignType :=
      (@alignment_spec env.maxAlignType ⟨power, small, isPower⟩).2
    apply (Nat.dvd_mod_iff whole).mpr
    exact Nat.dvd_mul_right_of_dvd (Nat.dvd_add (maxAlign_dvd_headerSize env) isAlignment) n
  have ofHeaders : env.maxAlign ∣ env.headerSize * n :=
    Nat.dvd_mul_right_of_dvd (maxAlign_dvd_headerSize env) n
  have atLeast : env.maxAlign ≤ env.headerSize * n - maxOverhead env n :=
    Nat.le_of_dvd (by omega) (Nat.dvd_sub ofHeaders isMultiple)
  omega

/-- `max_overhead` is enough for all orders of some objects unless it wraps around. -/
theorem maxOverhead_suffices_iff (isAlign : IsAlign env.maxAlign) {types : List ElementType}
    (aligned : ∀ type ∈ types, type.align ≤ env.maxAlign) {mem : Nat} {memory : Memory}
    {stack : BasicObstack}
    (isStack : BasicObstack.construct env (totalSize types + maxOverhead env types.length) mem
      memory = stack)
    (inRange : stack.endOfMem < 2 ^ 64) :
    (∀ order, order.Perm types → AllocatesAll env stack order) ↔
      (env.headerSize + alignment env.maxAlignType) * types.length < 2 ^ 64 := by
  have capacity := toAllocCapacity_spec env (totalSize types + maxOverhead env types.length)
  have isTos : stack.tos = mem := isStack ▸ rfl
  have isEnd : stack.endOfMem = mem + toAllocCapacity env
      (totalSize types + maxOverhead env types.length) * env.maxAlign := isStack ▸ rfl
  constructor
  · intro all
    by_contra wraps
    have tooFew := maxOverhead_wraps isAlign (Nat.le_of_not_lt wraps)
    have needed := room_of_allocatesAll inRange (by omega) (all types (.refl _))
    omega
  · intro fits order same
    have isOverhead : maxOverhead env types.length =
        (env.headerSize + alignment env.maxAlignType) * types.length := Nat.mod_eq_of_lt fits
    have sameTotal : totalSize order = totalSize types := (same.map ElementType.size).sum_nat
    apply allocatesAll_of_room inRange
    · exact fun type member => aligned type (same.mem_iff.mp member)
    · rw [sameTotal, same.length_eq]
      omega

theorem maxOverhead_suffices_two :
    (∀ order, order.Perm [⟨24, 8, 256⟩, ⟨1, 1, 256⟩] → AllocatesAll sampleEnvironment
      (.construct sampleEnvironment (totalSize [⟨24, 8, 256⟩, ⟨1, 1, 256⟩] +
        maxOverhead sampleEnvironment 2) 4096 (fun _ => 0)) order) ↔
      (sampleEnvironment.headerSize + alignment sampleEnvironment.maxAlignType) * 2 < 2 ^ 64 :=
  @maxOverhead_suffices_iff sampleEnvironment ⟨4, by decide, rfl⟩ [⟨24, 8, 256⟩, ⟨1, 1, 256⟩]
    (by decide) 4096 (fun _ => 0) _ rfl (by decide)

/-- The overhead of 2^60 objects is zero. -/
theorem maxOverhead_fails : ∃ types : List ElementType,
    types.length = 2 ^ 60 ∧ (∀ type ∈ types, type = ⟨1, 1, 256⟩) ∧
      ¬ ∀ order, order.Perm types → AllocatesAll sampleEnvironment
        (.construct sampleEnvironment (totalSize types +
          maxOverhead sampleEnvironment types.length) 4096 (fun _ => 0)) order := by
  obtain ⟨types, isLength, isTotal, same⟩ : ∃ types : List ElementType,
      types.length = 2 ^ 60 ∧ totalSize types = 2 ^ 60 ∧ ∀ type ∈ types, type = ⟨1, 1, 256⟩ := by
    refine ⟨List.replicate (2 ^ 60) ⟨1, 1, 256⟩, List.length_replicate, ?_,
      fun type member => List.eq_of_mem_replicate member⟩
    unfold totalSize
    rw [List.map_replicate, List.sum_replicate_nat, Nat.mul_one]
  refine ⟨types, isLength, same, ?_⟩
  intro all
  have own := all types (.refl _)
  rw [isLength, isTotal] at own
  have needed := room_of_allocatesAll (by decide) (Nat.le_add_right _ _) own
  rw [isLength, isTotal] at needed
  exact absurd needed (by decide)

end MallocSurvey.Obstack
