import MallocSurvey.Library.BoundaryTags
import MallocSurvey.Tlsf.Allocator

/-! # What the control structure and the headers stand for

The blocks are the pieces of the pools. The free ones are on the lists of their classes,
except for some loose ones. -/

namespace MallocSurvey.Tlsf

open Library

/-! ## Arithmetic -/

section Arithmetic

variable {left right block size : Nat}

@[simp] theorem alignSize_bits64 : alignSize .bits64 = 8 := rfl

@[simp] theorem blockHeaderOverhead_bits64 : blockHeaderOverhead .bits64 = 8 := rfl

@[simp] theorem sizeofHeader_bits64 : sizeofHeader .bits64 = 32 := rfl

@[simp] theorem blockSizeMin_bits64 : blockSizeMin .bits64 = 24 := rfl

@[simp] theorem blockToPtr_eq (block : Nat) : blockToPtr block = block + 16 := rfl

theorem addWord_of_lt (fits : left + right < 2 ^ 64) : addWord .bits64 left right = left + right :=
  Nat.mod_eq_of_lt fits

theorem subWord_of_le (le : right ≤ left) (fits : left < 2 ^ 64) :
    subWord .bits64 left right = left - right := by
  unfold subWord
  simp only [Arch.wordBits]
  omega

/-- Where a block of some size ends. The size may be zero. -/
theorem offsetToBlock_end (fits : block + 16 + size < 2 ^ 64) :
    offsetToBlock (blockToPtr block) (subWord .bits64 size 8) = block + (8 + size) := by
  unfold offsetToBlock addWord subWord
  simp only [blockToPtr_eq, Arch.wordBits]
  omega

/-- Addresses of blocks are aligned. -/
theorem alignPtr_eq {ptr : Nat} (aligned : ptr % 8 = 0) (fits : ptr + 8 ≤ 2 ^ 64) :
    alignPtr ptr 8 = ptr := by
  have isUp : alignUp .bits64 ptr (2 ^ 3) = (ptr + (2 ^ 3 - 1)) / 2 ^ 3 * 2 ^ 3 :=
    alignUp_eq (by decide) (by simp only [Arch.wordBits]; omega)
  have same : alignPtr ptr 8 = (ptr + (2 ^ 3 - 1)) / 2 ^ 3 * 2 ^ 3 := isUp
  omega

/-- An assertion that holds. -/
theorem guard_bind {Value : Type} {condition : Prop} [Decidable condition] (holds : condition)
    (rest : Unit → Option Value) : (guard condition >>= rest) = rest () := by
  rw [guard, if_pos holds]
  rfl

theorem some_bind {Value Next : Type} (value : Value) (rest : Value → Option Next) :
    (some value >>= rest) = rest value := rfl

end Arithmetic

/-! ## Fields -/

theorem Field.offset_aligned (name : Field) : name.offset % 8 = 0 := by
  cases name <;> rfl

namespace Control

variable {control : Control} {block other value place : Nat} {name otherName : Field}

/-- A field of the same name changes in one block. -/
theorem field_setField (aligned : block % 8 = 0) (otherAligned : other % 8 = 0)
    (fits : value < 2 ^ 64) :
    (control.setField block name value).field other name =
      if other = block then value else control.field other name := by
  split
  · next same =>
      rw [same]
      exact loadPointer_storePointer fits
  · next different =>
      apply loadPointer_storePointer_apart
      unfold Apart
      omega

theorem field_setField_of_ne (aligned : block % 8 = 0) (otherAligned : other % 8 = 0)
    (different : other + otherName.offset ≠ block + name.offset) :
    (control.setField block name value).field other otherName = control.field other otherName := by
  have left := Field.offset_aligned name
  have right := Field.offset_aligned otherName
  apply loadPointer_storePointer_apart
  unfold Apart
  omega

theorem setField_outside (outside : place < block + name.offset ∨ block + name.offset + 8 ≤ place) :
    (control.setField block name value).memory place = control.memory place :=
  storeBytes_outside outside

theorem field_lt (control : Control) (block : Nat) (name : Field) :
    control.field block name < 2 ^ 64 :=
  loadBytes_lt control.memory 8 _

/-- Only the memory differs. -/
structure SameTables (old new : Control) : Prop where
  address : new.address = old.address
  flBitmap : new.flBitmap = old.flBitmap
  slBitmap : new.slBitmap = old.slBitmap
  blocks : new.blocks = old.blocks

theorem SameTables.trans {first second third : Control} (left : SameTables first second)
    (right : SameTables second third) : SameTables first third :=
  ⟨right.address.trans left.address, right.flBitmap.trans left.flBitmap,
    right.slBitmap.trans left.slBitmap, right.blocks.trans left.blocks⟩

end Control

/-! ## The representation -/

/-- The class of a length that `mapping_insert` computes. -/
def classOf (length : Nat) : Nat × Nat :=
  (LogLinear.level 3 5 length, LogLinear.part 3 5 length)

/-- A pool is smaller than `block_size_max`, aligned, and apart from `block_null`. -/
structure PoolBounds (address : Nat) (pool : Nat × Nat) : Prop where
  aligned : pool.1 % 8 = 0
  nonzero : 0 < pool.1
  small : pool.2 < pool.1 + 8 + 2 ^ 32
  fits : pool.2 + 16 ≤ 2 ^ 64
  apart : Extent.Apart ⟨address, 32⟩ (poolExtent 8 pool)

/-- Where the blocks are. -/
structure Laid (pools : List (Nat × Nat)) (address : Nat) (pieces : List Piece) : Prop where
  pooled : Pooled 8 pools pieces
  apart : (pools.map (poolExtent 8)).Pairwise Extent.Apart
  bounds : ∀ pool ∈ pools, PoolBounds address pool
  sizes : ∀ piece ∈ pieces, piece.len % 8 = 0 ∧ (piece.len ≠ 0 → 24 ≤ piece.len)
  aligned : address % 8 = 0
  nonzero : 0 < address
  fits : address + 32 ≤ 2 ^ 64

structure Rep (pools : List (Nat × Nat)) (control : Control) (pieces : List Piece)
    (lists : Nat × Nat → List Nat) (loose : List Nat) : Prop where
  laid : Laid pools control.address pieces
  tagged : Tagged 8 control.memory false pieces
  segregated : Segregated control.address (control.field · .nextFree) (control.field · .prevFree)
    control.blocks lists
  marked : Marked control.flBitmap control.slBitmap lists
  listed : ∀ index node, node ∈ lists index ↔ ∃ piece ∈ pieces, piece.ptr = node ∧
    piece.free = true ∧ node ∉ loose ∧ classOf piece.len = index

namespace Laid

variable {pools : List (Nat × Nat)} {address : Nat} {pieces : List Piece} {piece other : Piece}
  (laid : Laid pools address pieces)

include laid

theorem tiles : (pieces.map (tile 8)).Pairwise Extent.Apart := laid.pooled.apart laid.apart

theorem ptr_aligned (member : piece ∈ pieces) : piece.ptr % 8 = 0 := by
  refine laid.pooled.aligned (fun pool isPool => (laid.bounds pool isPool).aligned) ?_ member
  intro piece member
  have size := (laid.sizes piece member).1
  omega

/-- Facts about a piece that the arithmetic needs. -/
theorem piece_bounds (member : piece ∈ pieces) :
    piece.ptr % 8 = 0 ∧ 0 < piece.ptr ∧ piece.len % 8 = 0 ∧ piece.len < 2 ^ 32 ∧
      piece.ptr + piece.len + 16 ≤ 2 ^ 64 ∧
      (piece.len ≠ 0 → 24 ≤ piece.len ∧ piece.ptr + (8 + piece.len) + 16 ≤ 2 ^ 64) := by
  obtain ⟨pool, isPool, low, high, highNext⟩ := laid.pooled.inside member
  obtain ⟨_, nonzero, small, fits, _⟩ := laid.bounds pool isPool
  obtain ⟨lenAligned, least⟩ := laid.sizes piece member
  have ptrAligned := laid.ptr_aligned member
  refine ⟨ptrAligned, by omega, lenAligned, ?_, by omega, ?_⟩
  · by_cases isSentinel : piece.len = 0
    · omega
    · have bound := highNext isSentinel
      omega
  · intro notSentinel
    have bound := highNext notSentinel
    exact ⟨least notSentinel, by omega⟩

theorem free_len (member : piece ∈ pieces) (isFree : piece.free = true) : 24 ≤ piece.len :=
  (laid.sizes piece member).2 (laid.pooled.len_ne member isFree)

theorem different_tiles (member : piece ∈ pieces) (otherMember : other ∈ pieces)
    (different : piece ≠ other) : (tile 8 piece).Apart (tile 8 other) :=
  Extent.apart_of_map laid.tiles member otherMember different

/-- A piece is determined by its address. -/
theorem ptr_inj (member : piece ∈ pieces) (otherMember : other ∈ pieces)
    (same : piece.ptr = other.ptr) : piece = other := by
  by_contra different
  have apart := laid.different_tiles member otherMember different
  unfold Extent.Apart Apart tile at apart
  dsimp only at apart
  omega

theorem ptr_nodup : (pieces.map Piece.ptr).Nodup := by
  have apart := laid.tiles
  rw [List.pairwise_map] at apart
  rw [List.nodup_iff_pairwise_ne, List.pairwise_map]
  refine apart.imp ?_
  intro left right apart same
  unfold Extent.Apart Apart tile at apart
  dsimp only at apart
  omega

/-- `block_null` is apart from the pieces. -/
theorem null_apart (member : piece ∈ pieces) :
    piece.ptr + 8 + (8 + piece.len) ≤ address ∨ address + 32 ≤ piece.ptr + 8 := by
  obtain ⟨pool, isPool, inside⟩ := laid.pooled.tile_inside member
  have apart := (laid.bounds pool isPool).apart
  unfold Extent.Apart Extent.Inside Apart tile poolExtent at *
  dsimp only at *
  omega

end Laid

namespace Rep

variable {pools : List (Nat × Nat)} {control : Control} {pieces before after : List Piece}
  {piece next : Piece} {lists : Nat × Nat → List Nat} {loose : List Nat} {index : Nat × Nat}
  {node : Nat}

/-! ## Reading headers -/

section Reading

variable (rep : Rep pools control pieces lists loose) (member : piece ∈ pieces)

include rep member

theorem exists_tag : ∃ prevFree, control.field piece.ptr .size = piece.tag prevFree := by
  obtain ⟨before, after, isSplit⟩ := List.append_of_mem member
  have tagged := rep.tagged
  rw [isSplit] at tagged
  exact ⟨_, tagged.tag_eq⟩

theorem len_mod : piece.len % 4 = 0 := by
  have size := (rep.laid.sizes piece member).1
  omega

theorem blockSize : control.blockSize piece.ptr = piece.len := by
  obtain ⟨prevFree, isTag⟩ := rep.exists_tag member
  rw [Control.blockSize, isTag, Piece.tag_len (rep.len_mod member)]

theorem blockIsFree : control.blockIsFree piece.ptr = piece.free := by
  obtain ⟨prevFree, isTag⟩ := rep.exists_tag member
  rw [Control.blockIsFree, isTag, Piece.tag_free (rep.len_mod member)]
  cases piece.free <;> rfl

theorem blockNext (notSentinel : piece.len ≠ 0) :
    control.blockNext piece.ptr = some (piece.ptr + (8 + piece.len)) := by
  obtain ⟨_, _, _, small, _, bounds⟩ := rep.laid.piece_bounds member
  obtain ⟨least, fits⟩ := bounds notSentinel
  have notLast : ¬ control.blockIsLast piece.ptr := by
    rw [Control.blockIsLast, rep.blockSize member]
    simpa using notSentinel
  unfold Control.blockNext
  rw [guard_bind notLast, rep.blockSize member, blockHeaderOverhead_bits64,
    offsetToBlock_end (by omega)]
  rfl

end Reading

theorem tag_eq (rep : Rep pools control (before ++ piece :: after) lists loose) :
    control.field piece.ptr .size = piece.tag (endFree false before) :=
  rep.tagged.tag_eq

theorem blockIsPrevFree (rep : Rep pools control (before ++ piece :: after) lists loose) :
    control.blockIsPrevFree piece.ptr = endFree false before := by
  rw [Control.blockIsPrevFree, rep.tag_eq, Piece.tag_prevFree (rep.len_mod (by simp))]
  cases endFree false before <;> rfl

/-- The block after one. -/
theorem exists_next (rep : Rep pools control (before ++ piece :: after) lists loose)
    (notSentinel : piece.len ≠ 0) : ∃ next rest, after = next :: rest ∧
      next.ptr = piece.ptr + (8 + piece.len) :=
  rep.laid.pooled.next notSentinel

/-- The block before one, if it is free. -/
theorem blockPrev {left : Piece}
    (rep : Rep pools control (before ++ left :: piece :: after) lists loose)
    (isFree : left.free = true) : control.blockPrev piece.ptr = left.ptr := by
  have member : left ∈ before ++ left :: piece :: after := by simp
  obtain ⟨next, rest, isNext, isPtr⟩ := rep.exists_next (rep.laid.pooled.len_ne member isFree)
  cases isNext
  have link := rep.tagged.link_eq isFree
  rw [Nat.add_assoc, ← isPtr] at link
  exact link

end Rep

end MallocSurvey.Tlsf
