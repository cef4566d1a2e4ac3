import Mathlib.Data.List.Perm.Subperm
import MallocSurvey.Ltalloc.CentralInvariant
import MallocSurvey.Ltalloc.SqueezeRefinement

/-! # Which chunks the squeeze releases

A chunk is found to be free when all its blocks are in the detached lists. -/

namespace MallocSurvey.Ltalloc

open Library

/-- The chunk of a block. -/
def chunkOf (block : Nat) : Nat := block / chunkSize * chunkSize

/-- All blocks of the chunk are listed. -/
def Releasable (sizeClass : Nat) (blocks : List Nat) (chunk : Nat) : Prop :=
  ∀ block ∈ chunkBlocks sizeClass chunk, block ∈ blocks

instance (sizeClass : Nat) (blocks : List Nat) (chunk : Nat) :
    Decidable (Releasable sizeClass blocks chunk) :=
  inferInstanceAs (Decidable (∀ block ∈ chunkBlocks sizeClass chunk, block ∈ blocks))

/-- The block is in a chunk that is released. -/
def released (sizeClass : Nat) (blocks : List Nat) (block : Nat) : Bool :=
  decide (Releasable sizeClass blocks (chunkOf block))

/-- Blocks of chunks of a class in the range that the counters cover. -/
structure Countable (sizeClass minChunkAddr slots : Nat) (headers : Nat → Nat)
    (blocks : List Nat) : Prop where
  nodup : blocks.Nodup
  minAligned : minChunkAddr % chunkSize = 0
  inChunk : ∀ block ∈ blocks, block ∈ chunkBlocks sizeClass (chunkOf block)
  lower : ∀ block ∈ blocks, minChunkAddr ≤ block
  upper : ∀ block ∈ blocks, chunkIndex minChunkAddr block < slots
  header : ∀ block ∈ blocks, headers (chunkOf block) = sizeClass

section Counting

variable {sizeClass minChunkAddr slots : Nat} {headers : Nat → Nat}

theorem chunkOf_mod (block : Nat) : chunkOf block % chunkSize = 0 :=
  Nat.mul_mod_left _ _

theorem chunkIndex_eq_iff (aligned : minChunkAddr % chunkSize = 0) {left right : Nat}
    (leftLower : minChunkAddr ≤ left) (rightLower : minChunkAddr ≤ right) :
    chunkIndex minChunkAddr left = chunkIndex minChunkAddr right ↔
      chunkOf left = chunkOf right := by
  simp only [chunkIndex, chunkOf, chunkSize] at aligned ⊢
  omega

/-- The listed blocks of a chunk. -/
def listedIn (blocks : List Nat) (chunk : Nat) : List Nat :=
  blocks.filter fun block => chunkOf block == chunk

theorem mem_listedIn {blocks : List Nat} {chunk block : Nat} :
    block ∈ listedIn blocks chunk ↔ block ∈ blocks ∧ chunkOf block = chunk := by
  simp [listedIn]

theorem listedIn_append (left right : List Nat) (chunk : Nat) :
    listedIn (left ++ right) chunk = listedIn left chunk ++ listedIn right chunk :=
  List.filter_append ..

/-- A chunk is releasable when as many blocks are listed as it has. -/
theorem listedIn_length (geometry : Geometry sizeClass) {blocks : List Nat}
    (nodup : blocks.Nodup)
    (inChunk : ∀ block ∈ blocks, block ∈ chunkBlocks sizeClass (chunkOf block))
    {chunk : Nat} (aligned : chunk % chunkSize = 0) :
    (listedIn blocks chunk).length ≤ numBlocksInChunk sizeClass ∧
      ((listedIn blocks chunk).length = numBlocksInChunk sizeClass ↔
        Releasable sizeClass blocks chunk) := by
  have listedNodup : (listedIn blocks chunk).Nodup := nodup.filter _
  have chunkLength : (chunkBlocks sizeClass chunk).length = numBlocksInChunk sizeClass := by
    rw [chunkBlocks, run_length]
  have subset : listedIn blocks chunk ⊆ chunkBlocks sizeClass chunk := by
    intro block member
    obtain ⟨isListed, isChunk⟩ := mem_listedIn.mp member
    exact isChunk ▸ inChunk block isListed
  have subperm := listedNodup.subperm subset
  have short := subperm.length_le
  rw [chunkLength] at short
  refine ⟨short, ?_, ?_⟩
  · intro full block member
    have perm := subperm.perm_of_length_le (by rw [chunkLength, full])
    exact (mem_listedIn.mp (perm.mem_iff.mpr member)).1
  · intro releasable
    have back : chunkBlocks sizeClass chunk ⊆ listedIn blocks chunk := fun block member =>
      mem_listedIn.mpr ⟨releasable block member,
        (chunk_of_mem_chunkBlocks geometry aligned member).1⟩
    have long := ((chunkBlocks_nodup geometry chunk).subperm back).length_le
    rw [chunkLength] at long
    omega

/-- The counters after `done` have been counted. -/
structure CountedBlocks (sizeClass minChunkAddr : Nat) (headers : Nat → Nat)
    (done : List Nat) (count : ChunkCount) : Prop where
  counts : ∀ block, minChunkAddr ≤ block →
    count.inChunkFreeBlocks (chunkIndex minChunkAddr block) =
      (listedIn done (chunkOf block)).length
  nodup : count.freeChunks.Nodup
  free : ∀ chunk, chunk ∈ count.freeChunks ↔
    (∃ block ∈ done, chunkOf block = chunk) ∧ Releasable sizeClass done chunk
  headers : ∀ chunk ∉ count.freeChunks, count.headers chunk = headers chunk

theorem freeBlock_spec (geometry : Geometry sizeClass) {done rest : List Nat} {block : Nat}
    {count : ChunkCount}
    (countable : Countable sizeClass minChunkAddr slots headers (done ++ block :: rest))
    (counted : CountedBlocks sizeClass minChunkAddr headers done count) :
    ∃ after, freeBlock sizeClass minChunkAddr slots count block = some after ∧
      CountedBlocks sizeClass minChunkAddr headers (done ++ [block]) after := by
  have member : block ∈ done ++ block :: rest := by simp
  have lower := countable.lower block member
  have sublist : (done ++ [block]).Sublist (done ++ block :: rest) :=
    (List.singleton_sublist.mpr List.mem_cons_self).append_left done
  have newNodup := countable.nodup.sublist sublist
  have newInChunk := fun other (isListed : other ∈ done ++ [block]) =>
    countable.inChunk other (sublist.subset isListed)
  have doneInChunk := fun other (isListed : other ∈ done) =>
    newInChunk other (List.mem_append_left _ isListed)
  have doneNodup := newNodup.sublist (List.sublist_append_left done [block])
  have oldLength := fun chunk (aligned : chunk % chunkSize = 0) =>
    listedIn_length geometry doneNodup doneInChunk aligned
  have newLength := fun chunk (aligned : chunk % chunkSize = 0) =>
    listedIn_length geometry newNodup newInChunk aligned
  have own : (listedIn (done ++ [block]) (chunkOf block)).length =
      (listedIn done (chunkOf block)).length + 1 := by
    simp [listedIn]
  have other : ∀ chunk, chunk ≠ chunkOf block →
      listedIn (done ++ [block]) chunk = listedIn done chunk := by
    intro chunk different
    have notIn : (chunkOf block == chunk) = false := by simpa using different.symm
    rw [listedIn_append]
    simp only [listedIn, List.filter_cons, notIn, List.filter_nil]
    simp
  have counts : ∀ address, minChunkAddr ≤ address →
      Function.update count.inChunkFreeBlocks (chunkIndex minChunkAddr block)
          (count.inChunkFreeBlocks (chunkIndex minChunkAddr block) + 1)
          (chunkIndex minChunkAddr address) =
        (listedIn (done ++ [block]) (chunkOf address)).length := by
    intro address addressLower
    by_cases same : chunkOf address = chunkOf block
    · rw [(chunkIndex_eq_iff countable.minAligned addressLower lower).mpr same,
        Function.update_self, same, own, counted.counts block lower]
    · rw [Function.update_of_ne (fun equal => same
          ((chunkIndex_eq_iff countable.minAligned addressLower lower).mp equal)),
        other _ same, counted.counts address addressLower]
  -- the chunk of the block was not yet free, since this block was not listed
  have notFree : chunkOf block ∉ count.freeChunks := by
    intro isFree
    have full := (oldLength _ (chunkOf_mod block)).2.mpr
      ((counted.free (chunkOf block)).mp isFree).2
    have bound := (newLength _ (chunkOf_mod block)).1
    omega
  have othersFree : ∀ chunk, chunk ≠ chunkOf block → (chunk ∈ count.freeChunks ↔
      (∃ listed ∈ done ++ [block], chunkOf listed = chunk) ∧
        Releasable sizeClass (done ++ [block]) chunk) := by
    intro chunk different
    rw [counted.free chunk]
    have sameListed : (∃ listed ∈ done ++ [block], chunkOf listed = chunk) ↔
        ∃ listed ∈ done, chunkOf listed = chunk := by
      have memIff := fun listed => @mem_listedIn (done ++ [block]) chunk listed
      have oldIff := fun listed => @mem_listedIn done chunk listed
      simp only [← memIff, ← oldIff, other chunk different]
    rw [sameListed]
    refine and_congr_right fun listed => ?_
    obtain ⟨witness, _, isChunk⟩ := listed
    have aligned : chunk % chunkSize = 0 := isChunk ▸ chunkOf_mod witness
    rw [← (oldLength chunk aligned).2, ← (newLength chunk aligned).2, other chunk different]
  unfold freeBlock
  rw [if_pos ⟨lower, countable.upper block member⟩]
  have blockCount := counted.counts block lower
  by_cases full : count.inChunkFreeBlocks (chunkIndex minChunkAddr block) + 1 =
      numBlocksInChunk sizeClass
  · have header : count.headers (block / chunkSize * chunkSize) = sizeClass :=
      (counted.headers _ notFree).trans (countable.header block member)
    have releasable : Releasable sizeClass (done ++ [block]) (chunkOf block) :=
      (newLength _ (chunkOf_mod block)).2.mp (by omega)
    rw [if_pos full, if_pos header]
    refine ⟨_, rfl, counts, List.nodup_cons.mpr ⟨notFree, counted.nodup⟩, ?_, ?_⟩
    · intro chunk
      by_cases same : chunk = chunkOf block
      · subst same
        exact ⟨fun _ => ⟨⟨block, by simp, rfl⟩, releasable⟩, fun _ => List.mem_cons_self⟩
      · rw [← othersFree chunk same]
        exact ⟨fun isFree => (List.mem_cons.mp isFree).resolve_left same,
          List.mem_cons_of_mem _⟩
    · intro chunk isNotFree
      have notHead := List.ne_of_not_mem_cons isNotFree
      exact (Function.update_of_ne notHead _ _).trans
        (counted.headers chunk (List.not_mem_of_not_mem_cons isNotFree))
  · rw [if_neg full]
    refine ⟨_, rfl, counts, counted.nodup, ?_, counted.headers⟩
    intro chunk
    by_cases same : chunk = chunkOf block
    · subst same
      refine ⟨fun isFree => absurd isFree notFree, fun ⟨_, releasable⟩ => ?_⟩
      have := (newLength _ (chunkOf_mod block)).2.mpr releasable
      omega
    · exact othersFree chunk same

theorem countBlocks_spec (geometry : Geometry sizeClass) {rest : List Nat} :
    ∀ {done : List Nat} {count : ChunkCount},
      Countable sizeClass minChunkAddr slots headers (done ++ rest) →
      CountedBlocks sizeClass minChunkAddr headers done count →
      ∃ after, countBlocks sizeClass minChunkAddr slots rest count = some after ∧
        CountedBlocks sizeClass minChunkAddr headers (done ++ rest) after := by
  induction rest with
  | nil =>
      intro done count _ counted
      exact ⟨count, rfl, by rwa [List.append_nil]⟩
  | cons block rest induction =>
      intro done count countable counted
      obtain ⟨after, result, newCounted⟩ := freeBlock_spec geometry countable counted
      rw [show done ++ block :: rest = (done ++ [block]) ++ rest by simp] at countable ⊢
      obtain ⟨last, lastResult, lastCounted⟩ := induction countable newCounted
      refine ⟨last, ?_, lastCounted⟩
      rw [countBlocks, result]
      exact lastResult

/-- Counting the detached blocks. -/
theorem counted_spec (geometry : Geometry sizeClass) {blocks : List Nat}
    (countable : Countable sizeClass minChunkAddr slots headers blocks) :
    ∃ after, countBlocks sizeClass minChunkAddr slots blocks ⟨fun _ => 0, [], headers⟩ =
        some after ∧
      CountedBlocks sizeClass minChunkAddr headers blocks after :=
  @countBlocks_spec _ _ _ _ geometry _ [] _ countable
    ⟨fun _ _ => rfl, List.nodup_nil, fun chunk => by simp, fun _ _ => rfl⟩

/-- The blocks that are released are those of releasable chunks. -/
theorem CountedBlocks.matching_iff (geometry : Geometry sizeClass) {blocks : List Nat}
    {count : ChunkCount} (countable : Countable sizeClass minChunkAddr slots headers blocks)
    (counted : CountedBlocks sizeClass minChunkAddr headers blocks count) {block : Nat}
    (member : block ∈ blocks) :
    (count.inChunkFreeBlocks (chunkIndex minChunkAddr block) ==
        numBlocksInChunk sizeClass) =
      released sizeClass blocks block := by
  have length := listedIn_length geometry countable.nodup countable.inChunk
    (chunkOf_mod block)
  rw [counted.counts block (countable.lower block member), released,
    ← decide_eq_decide.mpr length.2]
  rfl

end Counting

end MallocSurvey.Ltalloc
