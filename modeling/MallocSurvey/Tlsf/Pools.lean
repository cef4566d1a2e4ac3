import MallocSurvey.Tlsf.Blocks

/-! # Adding and removing pools

A new pool is one free block and a sentinel. -/

namespace MallocSurvey.Tlsf

open Library

variable {pools : List (Nat × Nat)} {control : Control} {pieces : List Piece}
  {lists : Nat × Nat → List Nat} {mem size bytes : Nat}

/-- The size of an accepted pool without the two words of overhead. -/
theorem poolBytes_spec (accepted : Accepted .bits64 bytes) (inRange : bytes < 2 ^ 64) :
    poolBytes .bits64 bytes % 8 = 0 ∧ 24 ≤ poolBytes .bits64 bytes ∧
      poolBytes .bits64 bytes + 16 ≤ bytes ∧ bytes < poolBytes .bits64 bytes + 24 := by
  obtain ⟨least, most⟩ := accepted
  have isMin : blockSizeMin .bits64 = 24 := rfl
  have isMax : blockSizeMax .bits64 = 2 ^ 32 := rfl
  rw [isMin] at least
  rw [isMax] at most
  have isDown : poolBytes .bits64 bytes =
      subWord .bits64 bytes 16 - subWord .bits64 bytes 16 % 8 := by
    have isMask : subWord .bits64 bytes 16 &&& 7 = subWord .bits64 bytes 16 % 8 :=
      Nat.and_two_pow_sub_one_eq_mod _ 3
    rw [← isMask]
    rfl
  rw [isDown] at least most ⊢
  clear isDown
  unfold subWord at *
  simp only [Arch.wordBits] at *
  omega

/-! ## Where the pool is -/

/-- The header of the first block begins in front of the pool. -/
def poolOf (mem size : Nat) : Nat × Nat := (mem - 8, mem + size)

def poolBlock (mem size : Nat) : Piece := ⟨mem - 8, size, true⟩

/-- The memory for a pool is aligned and no other one's. -/
structure PoolFits (pools : List (Nat × Nat)) (address mem size : Nat) : Prop where
  aligned : mem % 8 = 0
  nonzero : 16 ≤ mem
  sizeAligned : size % 8 = 0
  least : 24 ≤ size
  small : size < 2 ^ 32
  inRange : mem + size + 16 ≤ 2 ^ 64
  null : Extent.Apart ⟨address, 32⟩ ⟨mem, size + 16⟩
  apart : ∀ pool ∈ pools, Extent.Apart ⟨mem, size + 16⟩ (poolExtent 8 pool)

namespace PoolFits

variable {address : Nat} (fits : PoolFits pools address mem size)

include fits

theorem poolExtent_eq : poolExtent 8 (poolOf mem size) = ⟨mem, size + 16⟩ := by
  have nonzero := fits.nonzero
  rw [poolExtent, poolOf]
  congr 1 <;> omega

theorem laid (laid : Laid pools address pieces) :
    Laid (poolOf mem size :: pools) address
      (poolBlock mem size :: sentinel (mem + size) :: pieces) := by
  obtain ⟨aligned, nonzero, sizeAligned, least, small, inRange, null, apart⟩ := id fits
  refine ⟨?_, ?_, ?_, ?_, laid.aligned, laid.nonzero, laid.fits⟩
  · have notSentinel : (poolBlock mem size).len ≠ 0 := by
      change size ≠ 0
      omega
    have isEnd : mem - 8 + (8 + size) = mem + size := by omega
    refine (Pooled.cons_of_ne notSentinel).mpr ⟨rfl, ?_⟩
    refine (Pooled.cons_of_eq rfl).mpr ⟨isEnd.symm, isEnd, rfl, laid.pooled⟩
  · rw [List.map_cons, List.pairwise_cons, fits.poolExtent_eq]
    refine ⟨?_, laid.apart⟩
    intro extent member
    obtain ⟨pool, isPool, isExtent⟩ := List.mem_map.mp member
    exact isExtent ▸ apart pool isPool
  · intro pool isPool
    rcases List.mem_cons.mp isPool with isNew | isOld
    · rw [isNew]
      refine ⟨?_, ?_, ?_, ?_, fits.poolExtent_eq ▸ null⟩ <;> dsimp only [poolOf] <;> omega
    · exact laid.bounds pool isOld
  · intro piece member
    rcases List.mem_cons.mp member with isBlock | member
    · rw [isBlock]
      exact ⟨sizeAligned, fun _ => least⟩
    · rcases List.mem_cons.mp member with isSentinel | member
      · rw [isSentinel]
        exact ⟨rfl, fun nonzero => absurd rfl nonzero⟩
      · exact laid.sizes piece member

/-- No block of the other pools is in the new one. -/
theorem owns_apart (laid : Laid pools address pieces) {piece : Piece} (member : piece ∈ pieces)
    {place : Nat} (owned : Owns 8 piece place) : place < mem ∨ mem + size + 16 ≤ place := by
  obtain ⟨pool, isPool, inside⟩ := laid.pooled.tile_inside member
  have apart := fits.apart pool isPool
  unfold Extent.Apart Extent.Inside Apart tile Owns at *
  dsimp only at *
  omega

end PoolFits

namespace Control

/-! ## Stores that commute -/

variable {block other value otherValue : Nat} {name otherName : Field}

theorem setField_setField :
    (control.setField block name value).setField block name otherValue =
      control.setField block name otherValue := by
  unfold setField storePointer
  congr 1
  exact storeBytes_storeBytes

theorem setField_comm (apart : Apart (block + name.offset) 8 (other + otherName.offset) 8) :
    (control.setField block name value).setField other otherName otherValue =
      (control.setField other otherName otherValue).setField block name value := by
  unfold setField storePointer
  congr 1
  exact storeBytes_comm apart

/-! ## The headers of the pool -/

/-- The header of the sentinel and the link in front of it. -/
def sealed (control : Control) (mem size : Nat) : Control :=
  (control.setField (mem + size) .prevPhysBlock (mem - 8)).setField (mem + size) .size 2

/-- The header of the first block. -/
def headed (control : Control) (mem size : Nat) : Control :=
  control.setField (mem - 8) .size (size + 1)

/-- The headers of the first block and of the sentinel. -/
def formatted (control : Control) (mem size : Nat) : Control :=
  (control.headed mem size).sealed mem size

section Formatted

variable (fits : PoolFits pools control.address mem size)

include fits

/-- Only bytes of the pool change. -/
theorem formatted_outside {place : Nat} (outside : place < mem ∨ mem + size + 16 ≤ place) :
    (control.formatted mem size).memory place = control.memory place := by
  have nonzero := fits.nonzero
  have least := fits.least
  unfold formatted headed sealed
  rw [setField_outside (by dsimp only [Field.offset]; omega),
    setField_outside (by dsimp only [Field.offset]; omega),
    setField_outside (by dsimp only [Field.offset]; omega)]

theorem formatted_size : (control.formatted mem size).field (mem - 8) .size = size + 1 := by
  have nonzero := fits.nonzero
  have least := fits.least
  have small := fits.small
  have aligned := fits.aligned
  have sizeAligned := fits.sizeAligned
  unfold formatted headed sealed
  rw [field_setField (by omega) (by omega) (by omega), if_neg (by omega),
    field_setField_of_ne (by omega) (by omega) (by dsimp only [Field.offset]; omega),
    field_setField (by omega) (by omega) (by omega), if_pos rfl]

theorem formatted_link :
    (control.formatted mem size).field (mem + size) .prevPhysBlock = mem - 8 := by
  have inRange := fits.inRange
  have aligned := fits.aligned
  have sizeAligned := fits.sizeAligned
  unfold formatted headed sealed
  rw [field_setField_of_ne (by omega) (by omega) (by dsimp only [Field.offset]; omega),
    field_setField (by omega) (by omega) (by omega), if_pos rfl]

theorem formatted_sentinel : (control.formatted mem size).field (mem + size) .size = 2 := by
  have aligned := fits.aligned
  have sizeAligned := fits.sizeAligned
  unfold formatted headed sealed
  rw [field_setField (by omega) (by omega) (by omega), if_pos rfl]

/-- The block of the pool is there and on no list. -/
theorem rep_formatted (rep : Rep pools control pieces lists []) :
    Rep (poolOf mem size :: pools) (control.formatted mem size)
      (poolBlock mem size :: sentinel (mem + size) :: pieces) lists [mem - 8] := by
  have nonzero := fits.nonzero
  have same : ∀ piece ∈ pieces, ∀ place, Owns 8 piece place →
      (control.formatted mem size).memory place = control.memory place :=
    fun piece member place owned => formatted_outside fits (fits.owns_apart rep.laid member owned)
  have sameLinks : ∀ index, ∀ node ∈ lists index,
      (control.formatted mem size).field node .nextFree = control.field node .nextFree ∧
        (control.formatted mem size).field node .prevFree = control.field node .prevFree := by
    intro index node listed
    obtain ⟨piece, member, isPtr, isFree, _⟩ := (rep.listed index node).mp listed
    have least := rep.laid.free_len member isFree
    have owned : ∀ place, node + 16 ≤ place → place < node + 32 → Owns 8 piece place := by
      intro place above below
      unfold Owns
      omega
    constructor <;> refine loadPointer_congr fun place above below => same piece member place
      (owned place ?_ ?_) <;> dsimp only [Field.offset] at * <;> omega
  refine ⟨fits.laid rep.laid, ⟨?_, ?_, ?_, nofun, ?_⟩, ?_, rep.marked, ?_⟩
  · exact formatted_size fits
  · intro _
    have isEnd : (poolBlock mem size).ptr + 8 + (poolBlock mem size).len = mem + size := by
      dsimp only [poolBlock]
      omega
    rw [isEnd]
    exact formatted_link fits
  · exact formatted_sentinel fits
  · exact rep.tagged.congr_owned (by decide) same
  · exact rep.segregated.congr (fun index node listed => (sameLinks index node listed).1)
      fun index node listed => (sameLinks index node listed).2
  · intro index node
    rw [rep.listed]
    constructor
    · rintro ⟨piece, member, isPtr, isFree, _, isClass⟩
      refine ⟨piece, List.mem_cons_of_mem _ (List.mem_cons_of_mem _ member), isPtr, isFree, ?_,
        isClass⟩
      intro isNew
      rw [List.mem_singleton, ← isPtr] at isNew
      have least := rep.laid.free_len member isFree
      have owned : Owns 8 piece (piece.ptr + 8) := ⟨by omega, by omega⟩
      have apart := fits.owns_apart rep.laid member owned
      have poolLeast := fits.least
      omega
    · rintro ⟨piece, member, isPtr, isFree, notLoose, isClass⟩
      rcases List.mem_cons.mp member with isBlock | member
      · rw [← isPtr, isBlock] at notLoose
        exact absurd (List.mem_singleton_self _) notLoose
      · rcases List.mem_cons.mp member with isSentinel | member
        · rw [isSentinel] at isFree
          cases isFree
        · exact ⟨piece, member, isPtr, isFree, List.not_mem_nil, isClass⟩

/-- A node of the lists has its links outside the pool. -/
theorem node_outside (rep : Rep pools control pieces lists []) {node : Nat}
    (isNode : IsNode control.address pieces node) :
    node + 32 ≤ mem ∨ mem + size + 16 ≤ node + 16 := by
  rcases isNode with isNull | ⟨piece, member, isFree, isPtr⟩
  · have apart := fits.null
    unfold Extent.Apart Apart at apart
    dsimp only at apart
    omega
  · have least := rep.laid.free_len member isFree
    have first : Owns 8 piece (node + 16) := by
      unfold Owns
      omega
    have last : Owns 8 piece (node + 31) := by
      unfold Owns
      omega
    have tag : Owns 8 piece (node + 8) := by
      unfold Owns
      omega
    have firstApart := fits.owns_apart rep.laid member first
    have lastApart := fits.owns_apart rep.laid member last
    have poolLeast := fits.least
    obtain ⟨pool, isPool, inside⟩ := rep.laid.pooled.tile_inside member
    have apart := fits.apart pool isPool
    unfold Extent.Apart Extent.Inside Apart tile at *
    dsimp only at *
    omega

/-- The links of the new block can be set after the sentinel. -/
theorem linkFirst_sealed (other : Control) {current : Nat}
    (outside : current + 32 ≤ mem ∨ mem + size + 16 ≤ current + 16) :
    (other.sealed mem size).linkFirst (mem - 8) current =
      (other.linkFirst (mem - 8) current).sealed mem size := by
  have nonzero := fits.nonzero
  have least := fits.least
  have address : (other.sealed mem size).address = other.address := rfl
  have apart : ∀ name : Field, name.offset ≤ 8 → ∀ linkName : Field, 16 ≤ linkName.offset →
      Apart (mem + size + name.offset) 8 (mem - 8 + linkName.offset) 8 ∧
        Apart (mem + size + name.offset) 8 (current + linkName.offset) 8 := by
    intro name low linkName high
    have atMost : linkName.offset ≤ 24 := by cases linkName <;> decide
    unfold Apart
    omega
  have link := apart .prevPhysBlock (by decide)
  have tag := apart .size (by decide)
  unfold linkFirst
  rw [address]
  unfold sealed
  rw [setField_comm (tag .nextFree (by decide)).1, setField_comm (link .nextFree (by decide)).1,
    setField_comm (tag .prevFree (by decide)).1, setField_comm (link .prevFree (by decide)).1,
    setField_comm (tag .prevFree (by decide)).2, setField_comm (link .prevFree (by decide)).2]

end Formatted

/-! ## The functions -/

/-- The part of `insert_free_block` that the assertions lead to. -/
def inserted (control : Control) (block : Nat) (index : Nat × Nat) : Control :=
  { control.linkFirst block (control.blocks index) with
    blocks := Function.update control.blocks index block
    flBitmap := setBit control.flBitmap index.1
    slBitmap := Function.update control.slBitmap index.1
      (setBit (control.slBitmap index.1) index.2) }

theorem insertFreeBlock_eq (block : Nat) (index : Nat × Nat) :
    control.insertFreeBlock block index =
      if Indexed index ∧ control.blocks index ≠ 0 ∧ block ≠ 0 ∧
          blockToPtr block = alignPtr (blockToPtr block) (alignSize .bits64) then
        some (control.inserted block index)
      else none := by
  unfold insertFreeBlock
  by_cases isIndexed : Indexed index
  · by_cases current : control.blocks index ≠ 0
    · by_cases nonzero : block ≠ 0
      · by_cases aligned : blockToPtr block = alignPtr (blockToPtr block) (alignSize .bits64)
        · rw [if_pos ⟨isIndexed, current, nonzero, aligned⟩, guard_bind isIndexed]
          dsimp only
          rw [guard_bind current, guard_bind nonzero, guard_bind aligned]
          rfl
        · rw [if_neg fun all => aligned all.2.2.2, guard_bind isIndexed]
          dsimp only
          rw [guard_bind current, guard_bind nonzero, guard, if_neg aligned]
          rfl
      · rw [if_neg fun all => nonzero all.2.2.1, guard_bind isIndexed]
        dsimp only
        rw [guard_bind current, guard, if_neg nonzero]
        rfl
    · rw [if_neg fun all => current all.2.1, guard_bind isIndexed]
      dsimp only
      rw [guard, if_neg current]
      rfl
  · rw [if_neg fun all => isIndexed all.1, guard, if_neg isIndexed]
    rfl

/-- The block can be listed before the sentinel is there. -/
theorem blockInsert_headed (fits : PoolFits pools control.address mem size)
    (rep : Rep pools control pieces lists []) :
    ∃ bare newLists, (control.headed mem size).blockInsert (mem - 8) = some bare ∧
      Rep (poolOf mem size :: pools) (bare.sealed mem size)
        (poolBlock mem size :: sentinel (mem + size) :: pieces) newLists [] ∧
      Kept (usedPieces pieces) control.memory (bare.sealed mem size).memory := by
  have nonzero := fits.nonzero
  have least := fits.least
  have aligned := fits.aligned
  have sizeAligned := fits.sizeAligned
  have formattedRep := rep_formatted fits rep
  have isListed : poolBlock mem size ∈ poolBlock mem size :: sentinel (mem + size) :: pieces :=
    List.mem_cons_self
  obtain ⟨new, newLists, result, newRep, kept⟩ :=
    blockInsert_spec formattedRep isListed rfl List.not_mem_nil
  have isSize : (control.headed mem size).blockSize (mem - 8) =
      (control.formatted mem size).blockSize (mem - 8) := by
    unfold blockSize formatted sealed
    rw [field_setField_of_ne (by omega) (by omega) (by dsimp only [Field.offset]; omega),
      field_setField_of_ne (by omega) (by omega) (by dsimp only [Field.offset]; omega)]
  obtain ⟨index, isIndex, inserts⟩ := Option.bind_eq_some_iff.mp result
  rw [insertFreeBlock_eq] at inserts
  split at inserts
  · next conditions =>
      refine ⟨(control.headed mem size).inserted (mem - 8) index, newLists, ?_, ?_⟩
      · unfold blockInsert
        rw [isSize]
        refine Option.bind_eq_some_iff.mpr ⟨index, isIndex, ?_⟩
        rw [insertFreeBlock_eq]
        exact if_pos conditions
      · have isNew : ((control.headed mem size).inserted (mem - 8) index).sealed mem size = new := by
          rw [← Option.some.inj inserts]
          have outside := node_outside fits rep (rep.head_node index)
          have swapped := linkFirst_sealed fits (control.headed mem size) outside
          have sameMemory := congrArg Control.memory swapped.symm
          exact congrArg (fun memory => { (control.headed mem size).inserted (mem - 8) index with
            memory }) sameMemory
        rw [isNew]
        refine ⟨newRep, ?_⟩
        have formattedKept : Kept (usedPieces pieces) control.memory
            (control.formatted mem size).memory := by
          intro piece member place above below
          have isPiece := (List.mem_filter.mp member).1
          exact formatted_outside fits (fits.owns_apart rep.laid isPiece ⟨by omega, by omega⟩)
        refine formattedKept.trans (kept.subset ?_)
        intro piece member
        rw [usedPieces_cons_free rfl, usedPieces_cons_used rfl]
        exact List.mem_cons_of_mem _ member
  · cases inserts

/-- The setters write the header of a free block behind a used one. -/
theorem setters_headed {block : Nat} (aligned : block % 8 = 0) (sizeAligned : size % 8 = 0)
    (small : size < 2 ^ 64) :
    ((control.blockSetSize block size).blockSetFree block).blockSetPrevUsed block =
      control.setField block .size (size + 1) := by
  have flags := Nat.mod_lt (control.field block .size) (show 0 < 4 by decide)
  have joined := len_or_small (show size % 4 = 0 by omega) flags
  have isSize : (control.blockSetSize block size).field block .size =
      size + control.field block .size % 4 := by
    rw [size_blockSetSize aligned small, joined]
  have isFree := @size_blockSetFree (control.blockSetSize block size) _ aligned
  rw [isSize] at isFree
  have isHeader : (size + control.field block .size % 4 ||| 1) / 4 * 4 +
      (size + control.field block .size % 4 ||| 1) % 2 = size + 1 := by
    rw [or_small (show 1 < 4 by decide)]
    have rest : (size + control.field block .size % 4) % 4 = control.field block .size % 4 := by
      omega
    rw [rest]
    generalize control.field block .size % 4 = low at flags
    have isOdd : ∀ low < 4, (low ||| 1) < 4 ∧ (low ||| 1) % 2 = 1 := by decide
    have bounds := isOdd low flags
    omega
  unfold blockSetPrevUsed
  rw [isFree, isHeader]
  unfold blockSetFree blockSetSize
  rw [setField_setField, setField_setField]

/-- The setters write the header of a sentinel behind a free block. -/
theorem setters_sentinel {block : Nat} (aligned : block % 8 = 0) :
    ((control.blockSetSize block 0).blockSetUsed block).blockSetPrevFree block =
      control.setField block .size 2 := by
  have flags := Nat.mod_lt (control.field block .size) (show 0 < 4 by decide)
  have isSize := @size_blockSetSize control _ _ aligned (show 0 < 2 ^ 64 by decide)
  have isUsed := @size_blockSetUsed (control.blockSetSize block 0) _ aligned
  rw [isSize, Nat.zero_or] at isUsed
  have isHeader : control.field block .size % 4 / 2 * 2 ||| 2 = 2 := by
    generalize control.field block .size % 4 = low at flags
    have cleared : ∀ low < 4, low / 2 * 2 ||| 2 = 2 := by decide
    exact cleared low flags
  unfold blockSetPrevFree
  rw [isUsed, isHeader]
  unfold blockSetUsed blockSetSize
  rw [setField_setField, setField_setField]

/-- An accepted pool is added as one free block. -/
theorem tlsfAddPool_spec (accepted : Accepted .bits64 bytes)
    (fits : PoolFits pools control.address mem (poolBytes .bits64 bytes))
    (rep : Rep pools control pieces lists []) :
    ∃ new newLists, control.tlsfAddPool mem bytes = some (new, mem) ∧
      Rep (poolOf mem (poolBytes .bits64 bytes) :: pools) new
        (poolBlock mem (poolBytes .bits64 bytes) ::
          sentinel (mem + poolBytes .bits64 bytes) :: pieces) newLists [] ∧
      Kept (usedPieces pieces) control.memory new.memory := by
  have nonzero := fits.nonzero
  have aligned := fits.aligned
  have inRange := fits.inRange
  have sizeAligned := fits.sizeAligned
  have small := fits.small
  have least := fits.least
  obtain ⟨bare, newLists, inserts, newRep, kept⟩ := blockInsert_headed fits rep
  have isBlock : subWord .bits64 mem 8 = mem - 8 := subWord_of_le (by omega) (by omega)
  have notSentinel : (poolBlock mem (poolBytes .bits64 bytes)).len ≠ 0 := by
    change poolBytes .bits64 bytes ≠ 0
    omega
  have isNext : bare.blockNext (mem - 8) = some (mem + poolBytes .bits64 bytes) := by
    have sealedNext := newRep.blockNext List.mem_cons_self notSentinel
    have isSize : (bare.sealed mem (poolBytes .bits64 bytes)).blockSize (mem - 8) =
        bare.blockSize (mem - 8) := by
      unfold blockSize sealed
      rw [field_setField_of_ne (by omega) (by omega) (by dsimp only [Field.offset]; omega),
        field_setField_of_ne (by omega) (by omega) (by dsimp only [Field.offset]; omega)]
    have isEnd : mem - 8 + (8 + poolBytes .bits64 bytes) = mem + poolBytes .bits64 bytes := by
      omega
    unfold blockNext blockIsLast at sealedNext ⊢
    rw [← isSize, ← isEnd]
    exact sealedNext
  refine ⟨bare.sealed mem (poolBytes .bits64 bytes), newLists, ?_, newRep, kept⟩
  unfold tlsfAddPool
  dsimp only
  rw [alignSize_bits64, if_neg (not_not.mpr aligned), if_neg (not_not.mpr accepted),
    blockHeaderOverhead_bits64, isBlock, setters_headed (by omega) sizeAligned (by omega)]
  have inserted : (control.setField (mem - 8) .size (poolBytes .bits64 bytes + 1)).blockInsert
      (mem - 8) = some bare := inserts
  rw [inserted, some_bind]
  unfold blockLinkNext
  rw [isNext, some_bind]
  change some (((((bare.setField _ _ _).blockSetSize _ 0).blockSetUsed _).blockSetPrevFree _), mem) =
    _
  rw [setters_sentinel (by omega)]
  rfl

/-- Anything else is not a pool. -/
theorem tlsfAddPool_rejected (rejected : mem % 8 ≠ 0 ∨ ¬ Accepted .bits64 bytes) :
    control.tlsfAddPool mem bytes = some (control, 0) := by
  unfold tlsfAddPool
  dsimp only
  rw [alignSize_bits64]
  by_cases aligned : mem % 8 = 0
  · rw [if_neg (not_not.mpr aligned), if_pos (rejected.resolve_left (not_not.mpr aligned))]
    rfl
  · rw [if_pos aligned]
    rfl

/-! ## Removing a pool -/

variable {others : List (Nat × Nat)} {before after : List Piece} {place stop : Nat}

/-- A pool whose only block is loose is forgotten. -/
theorem rep_drop
    (rep : Rep (pools ++ (place, stop) :: others) control
      (before ++ ⟨place, size, true⟩ :: sentinel stop :: after) lists [place])
    (pooledBefore : Pooled 8 pools before) (pooledAfter : Pooled 8 others after) :
    Rep (pools ++ others) control (before ++ after) lists [] := by
  obtain ⟨⟨_, apart, bounds, sizes, aligned, nonzero, inRange⟩, tagged, segregated, marked,
    listed⟩ := id rep
  have fewer : ∀ pool ∈ pools ++ others, pool ∈ pools ++ (place, stop) :: others := by
    intro pool member
    simp only [List.mem_append, List.mem_cons] at member ⊢
    exact member.imp_right .inr
  have fewerPieces : ∀ piece ∈ before ++ after,
      piece ∈ before ++ ⟨place, size, true⟩ :: sentinel stop :: after := by
    intro piece member
    simp only [List.mem_append, List.mem_cons] at member ⊢
    exact member.imp_right fun isAfter => .inr (.inr isAfter)
  refine ⟨⟨pooledBefore.append pooledAfter, ?_, fun pool member => bounds pool (fewer pool member),
    fun piece member => sizes piece (fewerPieces piece member), aligned, nonzero, inRange⟩, ?_,
    segregated, marked, ?_⟩
  · refine apart.sublist ?_
    rw [List.map_append, List.map_append, List.map_cons]
    exact List.Sublist.append_left (List.sublist_cons_self _ _) _
  · rw [Tagged.append_iff] at tagged ⊢
    refine ⟨tagged.1, ?_⟩
    rw [endFree_of_pooled pooledBefore]
    exact tagged.2.2.2.2.2
  · intro index node
    rw [listed]
    constructor
    · rintro ⟨piece, member, isPtr, isFree, notLoose, isClass⟩
      refine ⟨piece, ?_, isPtr, isFree, List.not_mem_nil, isClass⟩
      simp only [List.mem_append, List.mem_cons] at member ⊢
      rcases member with isBefore | isBlock | isSentinel | isAfter
      · exact .inl isBefore
      · rw [← isPtr, isBlock] at notLoose
        exact absurd (List.mem_singleton_self _) notLoose
      · rw [isSentinel] at isFree
        cases isFree
      · exact .inr isAfter
    · rintro ⟨piece, member, isPtr, isFree, _, isClass⟩
      refine ⟨piece, fewerPieces piece member, isPtr, isFree, ?_, isClass⟩
      intro isLoose
      have nodup := rep.laid.ptr_nodup
      rw [List.map_append, List.map_cons, List.nodup_middle, List.nodup_cons] at nodup
      refine nodup.1 ?_
      change place ∈ _
      rw [← List.mem_singleton.mp isLoose, ← isPtr, ← List.map_append]
      refine List.mem_map.mpr ⟨piece, ?_, rfl⟩
      simp only [List.mem_append, List.mem_cons] at member ⊢
      exact member.imp_right .inr

/-- A pool without used blocks is removed. -/
theorem tlsfRemovePool_spec
    (rep : Rep (pools ++ (place, stop) :: others) control
      (before ++ ⟨place, size, true⟩ :: sentinel stop :: after) lists [])
    (pooledBefore : Pooled 8 pools before) (pooledAfter : Pooled 8 others after) :
    ∃ new newLists, control.tlsfRemovePool (place + 8) = some new ∧
      Rep (pools ++ others) new (before ++ after) newLists [] ∧
      Kept (usedPieces (before ++ after)) control.memory new.memory := by
  have member : ⟨place, size, true⟩ ∈ before ++ ⟨place, size, true⟩ :: sentinel stop :: after :=
    List.mem_append_right _ List.mem_cons_self
  have isNext : sentinel stop ∈ before ++ ⟨place, size, true⟩ :: sentinel stop :: after :=
    List.mem_append_right _ (List.mem_cons_of_mem _ List.mem_cons_self)
  have notSentinel : size ≠ 0 := rep.laid.pooled.len_ne member rfl
  have fits : place + size + 16 ≤ 2 ^ 64 := (rep.laid.piece_bounds member).2.2.2.2.1
  obtain ⟨next, rest, isRest, isPtr⟩ := rep.exists_next notSentinel
  have isStop : stop = place + (8 + size) := by
    rw [← isPtr, ← (List.cons.inj isRest).1]
    rfl
  have isBlock : subWord .bits64 (place + 8) 8 = place := by
    rw [subWord_of_le (by omega) (by omega), Nat.add_sub_cancel]
  have nextFree := rep.blockIsFree isNext
  have nextSize := rep.blockSize isNext
  change control.blockIsFree stop = false at nextFree
  change control.blockSize stop = 0 at nextSize
  obtain ⟨new, newLists, result, newRep, kept⟩ :=
    blockRemove_spec rep member rfl List.not_mem_nil
  have dropped : Rep (pools ++ others) new (before ++ after) newLists [] :=
    rep_drop newRep pooledBefore pooledAfter
  refine ⟨new, newLists, ?_, dropped, ?_⟩
  · have isFree := rep.blockIsFree member
    have isStep := rep.blockNext member notSentinel
    change control.blockIsFree place = true at isFree
    change control.blockNext place = some (place + (8 + size)) at isStep
    unfold tlsfRemovePool
    rw [blockHeaderOverhead_bits64, isBlock]
    dsimp only
    rw [guard_bind isFree, isStep, some_bind, ← isStop,
      guard_bind (ne_true_of_eq_false nextFree), guard_bind nextSize]
    exact result
  · refine kept.subset ?_
    intro piece isUsed
    rw [usedPieces_append, usedPieces_cons_free rfl, usedPieces_cons_used rfl]
    rw [usedPieces_append] at isUsed
    simp only [List.mem_append, List.mem_cons] at isUsed ⊢
    exact isUsed.imp_right .inr

/-! ## A new allocator -/

/-- There are no pools yet. -/
theorem rep_construct (memory : Memory) (aligned : mem % 8 = 0) (nonzero : 0 < mem)
    (inRange : mem + 32 ≤ 2 ^ 64) : Rep [] (construct memory mem) [] (fun _ => []) [] where
  laid := ⟨trivial, .nil, nofun, nofun, aligned, nonzero, inRange⟩
  tagged := trivial
  segregated := ⟨fun _ => rfl, fun _ => trivial, fun _ => .nil, nofun, nofun⟩
  marked := by
    have noBit : ∀ bit, (0#32).getLsbD bit = false := fun bit => BitVec.getLsbD_zero
    constructor
    · intro level part
      exact ⟨fun isSet => absurd ((noBit part).symm.trans isSet) Bool.false_ne_true,
        fun nonempty => absurd rfl nonempty⟩
    · intro level _
      exact ⟨fun isSet => absurd ((noBit level).symm.trans isSet) Bool.false_ne_true,
        fun nonempty => absurd rfl nonempty⟩
  listed := fun _ _ => ⟨nofun, nofun⟩

end Control

end MallocSurvey.Tlsf
