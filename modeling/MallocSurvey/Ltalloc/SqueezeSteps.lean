import MallocSurvey.Ltalloc.ClassInvariant
import MallocSurvey.Ltalloc.SqueezeCount

/-! # What a squeeze does to its class

The released chunks leave the class with all their blocks. The other blocks are
given back when no additional batch is completed and the list of additional blocks
is not the end that `cc->freeList` is hung on. -/

namespace MallocSurvey.Ltalloc

open Library

/-- The blocks that are linked anew: those of split batches and the loose ones. -/
def relinked (sizeClass : Nat) (lists : Detached) : List Nat :=
  readded (released sizeClass lists.blocks) lists.batches ++
    lists.freeList.filter fun block => !released sizeClass lists.blocks block

/-- With the blocks counted, some block is of a chunk that can be released. -/
def FindsFree (sizeClass : Nat) (lists : Detached) (counted : Bool) : Prop :=
  counted = true ∧ ∃ block ∈ lists.blocks, released sizeClass lists.blocks block = true

instance (sizeClass : Nat) (lists : Detached) (counted : Bool) :
    Decidable (FindsFree sizeClass lists counted) :=
  inferInstanceAs (Decidable (_ ∧ _))

/-- Nothing is released, or the blocks linked anew are too few for a batch and, unless
`cc->freeList` is empty, not none. -/
def LosesNothing (sizeClass : Nat) (lists : Detached) (ccFree : List Nat) (counted : Bool) :
    Prop :=
  FindsFree sizeClass lists counted →
    (relinked sizeClass lists).length < batchSize sizeClass + 1 ∧
      (relinked sizeClass lists = [] → ccFree = [])

/-- How many loose blocks are given back. -/
def looseCount (sizeClass : Nat) (lists : Detached) (counted : Bool) : Nat :=
  if FindsFree sizeClass lists counted then (relinked sizeClass lists).length
  else lists.freeList.length

theorem keeps_congr {matching other : Nat → Bool} {batch : List Nat}
    (same : ∀ block ∈ batch, matching block = other block) :
    keeps matching batch = keeps other batch := by
  have sameAny : batch.any matching = batch.any other := by
    rw [Bool.eq_iff_iff, List.any_eq_true, List.any_eq_true]
    exact exists_congr fun block => and_congr_right fun member => by rw [same block member]
  rw [keeps, keeps, sameAny]

theorem filter_keeps_congr {matching other : Nat → Bool} {batches : List (List Nat)}
    (same : ∀ block ∈ batches.flatten, matching block = other block) :
    batches.filter (keeps matching) = batches.filter (keeps other) :=
  List.filter_congr fun _ isBatch => keeps_congr fun block member =>
    same block (List.mem_flatten.mpr ⟨_, isBatch, member⟩)

theorem readded_congr {matching other : Nat → Bool} {batches : List (List Nat)}
    (same : ∀ block ∈ batches.flatten, matching block = other block) :
    readded matching batches = readded other batches := by
  have batchesEq : (batches.filter fun batch => !keeps matching batch) =
      batches.filter fun batch => !keeps other batch :=
    List.filter_congr fun _ isBatch => by
      rw [keeps_congr fun block member =>
        same block (List.mem_flatten.mpr ⟨_, isBatch, member⟩)]
  rw [readded, readded, batchesEq]
  refine List.filter_congr fun block member => ?_
  obtain ⟨batch, isBatch, inBatch⟩ := List.mem_flatten.mp member
  rw [same block (List.mem_flatten.mpr ⟨batch, List.mem_of_mem_filter isBatch, inBatch⟩)]

/-- Too few blocks for a batch are all left over. -/
theorem foldl_accumulate_short {batchSize : Nat} {todo : List Nat} :
    ∀ {taken : List Nat}, taken.length + todo.length < batchSize →
      todo.foldl (accumulate batchSize) taken = taken ++ todo := by
  induction todo with
  | nil => intro taken _; simp
  | cons block rest induction =>
      intro taken short
      rw [List.length_cons] at short
      rw [List.foldl_cons, accumulate, if_neg (by omega), induction]
      · simp
      · rw [List.length_append, List.length_singleton]
        omega

/-- Split batches and kept ones make up all. -/
theorem batches_split (matching : Nat → Bool) (batches : List (List Nat)) :
    ((batches.filter (keeps matching)).flatten : Multiset Nat) +
        (readded matching batches : Multiset Nat) +
        (batches.flatten.filter matching : Multiset Nat) =
      (batches.flatten : Multiset Nat) := by
  induction batches with
  | nil => rfl
  | cons batch rest induction =>
      cases split : keeps matching batch with
      | true =>
          have noMatch : batch.filter matching = [] := by
            rw [List.filter_eq_nil_iff]
            intro block member isMatching
            have hasMatch : batch.any matching = true :=
              List.any_eq_true.mpr ⟨block, member, isMatching⟩
            rw [keeps, hasMatch] at split
            cases split
          rw [List.filter_cons_of_pos split, readded_cons_of_keeps split,
            List.flatten_cons, List.flatten_cons, List.filter_append, noMatch,
            List.nil_append, ← Multiset.coe_add, ← Multiset.coe_add, ← induction]
          abel
      | false =>
          have parts : ((batch.filter fun block => !matching block : List Nat) :
              Multiset Nat) + (batch.filter matching : List Nat) = (batch : Multiset Nat) := by
            rw [add_comm, Multiset.coe_add, Multiset.coe_eq_coe]
            exact List.filter_append_perm matching batch
          rw [List.filter_cons_of_neg (by simp [split]), readded_cons_of_not_keeps split,
            List.flatten_cons, List.filter_append, ← Multiset.coe_add, ← Multiset.coe_add,
            ← Multiset.coe_add, ← induction, ← parts]
          abel

theorem relink_split (matching : Nat → Bool) (batches : List (List Nat))
    (loose : List Nat) :
    ((batches.filter (keeps matching)).flatten : Multiset Nat) +
        ((readded matching batches ++ loose.filter fun block => !matching block :
          List Nat) : Multiset Nat) +
        ((batches.flatten ++ loose).filter matching : List Nat) =
      ((batches.flatten ++ loose : List Nat) : Multiset Nat) := by
  have looseSplit : ((loose.filter fun block => !matching block : List Nat) :
      Multiset Nat) + (loose.filter matching : List Nat) = (loose : Multiset Nat) := by
    rw [add_comm, Multiset.coe_add, Multiset.coe_eq_coe]
    exact List.filter_append_perm _ _
  rw [List.filter_append, ← Multiset.coe_add, ← Multiset.coe_add, ← Multiset.coe_add,
    ← batches_split matching batches, ← looseSplit]
  abel

section GiveBack

variable {sizeClass : Nat} {headers : Nat → Nat} {lists : Detached} {cc : CentralCache}

/-- The lists that `giveBack` leaves in the central cache. -/
structure GaveBack (sizeClass : Nat) (headers : Nat → Nat) (lists : Detached)
    (cc : CentralCache) (isCounted : Bool) (count : ChunkCount) (firstBatch : List (List Nat))
    (freeList : List Nat) (freeListSize : Nat) : Prop where
  found : count.freeChunks ≠ [] ↔ FindsFree sizeClass lists isCounted
  counted : count.freeChunks ≠ [] →
    CountedBlocks sizeClass lists.minChunkAddr headers lists.blocks count
  headers : ∀ chunk ∉ count.freeChunks, count.headers chunk = headers chunk
  lists : count.freeChunks = [] ∧ firstBatch = lists.batches ++ cc.firstBatch ∧
      freeList = lists.freeList ++ cc.freeList ∧
      freeListSize = (cc.freeListSize + lists.freeListSize) % 2 ^ 32 ∨
    count.freeChunks ≠ [] ∧
      firstBatch = lists.batches.filter (keeps (released sizeClass lists.blocks)) ++
        cc.firstBatch ∧
      freeList = (if leftover (released sizeClass lists.blocks) (batchSize sizeClass + 1)
          lists.batches lists.freeList = [] then [] else
        leftover (released sizeClass lists.blocks) (batchSize sizeClass + 1) lists.batches
          lists.freeList ++ cc.freeList) ∧
      freeListSize = (cc.freeListSize + (leftover (released sizeClass lists.blocks)
        (batchSize sizeClass + 1) lists.batches lists.freeList).length) % 2 ^ 32

theorem leftover_congr {matching other : Nat → Bool} {full : Nat}
    {batches : List (List Nat)} {loose : List Nat}
    (same : ∀ block ∈ batches.flatten ++ loose, matching block = other block) :
    leftover matching full batches loose = leftover other full batches loose := by
  rw [leftover, leftover, readded_congr fun block member =>
    same block (List.mem_append_left _ member)]
  congr 2
  exact List.filter_congr fun block member => by
    rw [same block (List.mem_append_right _ member)]

theorem leftover_length_le (matching : Nat → Bool) (full : Nat)
    (batches : List (List Nat)) (loose : List Nat) :
    (batches.filter (keeps matching)).flatten.length +
        (leftover matching full batches loose).length ≤
      batches.flatten.length + loose.length := by
  have grows : ∀ (todo taken : List Nat),
      (todo.foldl (accumulate full) taken).length ≤ taken.length + todo.length := by
    intro todo
    induction todo with
    | nil => intro taken; simp
    | cons block rest induction =>
        intro taken
        have bound := induction (accumulate full taken block)
        have step : (accumulate full taken block).length ≤ taken.length + 1 := by
          unfold accumulate
          split_ifs <;> simp
        simp only [List.foldl_cons, List.length_cons]
        omega
  have bound := grows (readded matching batches ++
    loose.filter fun block => !matching block) []
  have split := congrArg Multiset.card (batches_split matching batches)
  simp only [Multiset.card_add, Multiset.coe_card] at split
  have looseLe := List.length_filter_le (fun block => !matching block) loose
  simp only [List.length_append, List.length_nil] at bound
  rw [leftover]
  omega

/-- The chunks that are found to be free. -/
theorem Detached.count_spec (geometry : Geometry sizeClass)
    (countable : Countable sizeClass lists.minChunkAddr lists.slots headers lists.blocks)
    (counted : Bool) :
    ∃ count, lists.count sizeClass headers counted = some count ∧
      (count.freeChunks ≠ [] ↔ FindsFree sizeClass lists counted) ∧
      (count.freeChunks ≠ [] →
        CountedBlocks sizeClass lists.minChunkAddr headers lists.blocks count) ∧
      ∀ chunk ∉ count.freeChunks, count.headers chunk = headers chunk := by
  cases counted with
  | true =>
      obtain ⟨after, result, spec⟩ := counted_spec geometry countable
      refine ⟨after, by rw [Detached.count, if_pos rfl, result], ?_, fun _ => spec,
        spec.headers⟩
      constructor
      · intro found
        obtain ⟨chunk, isFree⟩ := List.exists_mem_of_ne_nil _ found
        obtain ⟨⟨block, member, isChunk⟩, releasable⟩ := (spec.free chunk).mp isFree
        refine ⟨rfl, block, member, ?_⟩
        rw [released, isChunk]
        exact decide_eq_true releasable
      · rintro ⟨_, block, member, isReleased⟩
        exact List.ne_nil_of_mem ((spec.free (chunkOf block)).mpr
          ⟨⟨block, member, rfl⟩, of_decide_eq_true isReleased⟩)
  | false =>
      exact ⟨⟨fun _ => 0, [], headers⟩, rfl,
        ⟨fun absurd => absurd.elim rfl, fun found => Bool.noConfusion found.1⟩,
        fun absurd => absurd.elim rfl, fun _ _ => rfl⟩

theorem Detached.giveBack_spec (geometry : Geometry sizeClass)
    (countable : Countable sizeClass lists.minChunkAddr lists.slots headers lists.blocks)
    (nodup : (lists.blocks ++ (cc.firstBatch.flatten ++ cc.freeList)).Nodup)
    (nonempty : ∀ batch ∈ lists.batches ++ cc.firstBatch, batch ≠ [])
    (nonzero : ∀ block ∈ lists.blocks ++ (cc.firstBatch.flatten ++ cc.freeList),
      block ≠ 0) (counted : Bool) :
    ∃ count firstBatch freeList freeListSize,
      lists.giveBack sizeClass headers cc counted =
        some (count, { cc with firstBatch, freeList, freeListSize }) ∧
      GaveBack sizeClass headers lists cc counted count firstBatch freeList freeListSize := by
  have squeezeHeap := squeezeHeap_layLists nodup nonempty nonzero
  have blocksLength : lists.blocks.length =
      lists.batches.flatten.length + lists.freeList.length := List.length_append
  obtain ⟨count, countEq, foundIff, countSpec, headersSame⟩ :=
    Detached.count_spec geometry countable counted
  unfold Detached.giveBack
  by_cases found : count.freeChunks ≠ []
  · have sameMatching := fun block member =>
      @CountedBlocks.matching_iff _ _ _ _ geometry _ _ countable (countSpec found) block member
    have sameKept := filter_keeps_congr fun block member =>
      sameMatching block (List.mem_append_left _ member)
    obtain ⟨locals, result, size, central⟩ := @unlinkBlocks_spec _ _ _ _ _ (lists.blocks.length + 1) _ (batchSize sizeClass + 1) squeezeHeap
      (by omega)
    rw [leftover_congr sameMatching, sameKept] at central
    rw [leftover_congr sameMatching] at size
    have leftLe := leftover_length_le (released sizeClass lists.blocks)
      (batchSize sizeClass + 1) lists.batches lists.freeList
    have read := @readCentral_eq _ _ _ (lists.blocks.length +
      cc.firstBatch.flatten.length + cc.freeList.length + 1) central (by
        rw [List.flatten_append, List.length_append]
        split_ifs
        · simp only [List.length_nil]
          omega
        · rw [List.length_append]
          omega)
    have unlinkEq : lists.unlink sizeClass count
        (layLists lists.batches lists.freeList cc.firstBatch cc.freeList) = some locals := by
      rw [Detached.unlink, if_pos found, result]
    simp only [countEq, unlinkEq, read, Option.bind_eq_bind, Option.bind_some]
    exact ⟨count, _, _, _, rfl, foundIff, countSpec, headersSame,
      .inr ⟨found, rfl, rfl, by rw [size]⟩⟩
  · obtain ⟨locals, result, size, central⟩ := @walkToEnds_spec _ _ _ _ _ (lists.blocks.length + 1) squeezeHeap (by omega) lists.freeListSize
    have read := @readCentral_eq _ _ _ (lists.blocks.length +
      cc.firstBatch.flatten.length + cc.freeList.length + 1) central (by
        rw [List.flatten_append, List.length_append, List.length_append]
        omega)
    have unlinkEq : lists.unlink sizeClass count
        (layLists lists.batches lists.freeList cc.firstBatch cc.freeList) = some locals := by
      rw [Detached.unlink, if_neg found, result]
    simp only [countEq, unlinkEq, read, Option.bind_eq_bind, Option.bind_some]
    exact ⟨count, _, _, _, rfl, foundIff, countSpec, headersSame,
      .inl ⟨not_not.mp found, rfl, rfl, by rw [size]⟩⟩

end GiveBack

/-! ## The class after a squeeze -/

/-- The lists that a squeeze holds between its locked sections. -/
structure DetachedInv (sizeClass : Nat) (lists : Detached) : Prop where
  served : Served sizeClass
  large : chunkIsSmall sizeClass = false
  full : ∀ batch ∈ lists.batches, batch.length = batchSize sizeClass + 1
  size : lists.freeListSize = lists.freeList.length % 2 ^ 32
  minAligned : lists.minChunkAddr % chunkSize = 0
  lower : ∀ block ∈ lists.blocks, lists.minChunkAddr ≤ block
  upper : ∀ block ∈ lists.blocks, chunkIndex lists.minChunkAddr block < lists.slots

section Class

variable {threads : Nat} {sizeClass : Nat} {cs : ClassState threads}
  {lastWord headers : Nat → Nat} {fetching : Fin threads → Bool} {rest : Multiset Nat}
  {tails : List Nat} {lists : Detached} {count : ChunkCount}

namespace ClassInv

theorem countable (geometry : Geometry sizeClass)
    (inv : ClassInv sizeClass cs lastWord fetching
      (rest + (lists.blocks : Multiset Nat)) tails)
    (detachedInv : DetachedInv sizeClass lists)
    (headersOk : ∀ chunk ∈ cs.chunks, headers chunk = sizeClass) :
    Countable sizeClass lists.minChunkAddr lists.slots headers lists.blocks := by
  have ofClass := fun block (member : block ∈ lists.blocks) => inv.chunk_of_mem geometry
    (Multiset.mem_add.mpr (.inr (Multiset.mem_add.mpr (.inr (Multiset.mem_coe.mpr member)))))
  have nodup := Multiset.nodup_of_le
    ((Multiset.le_add_left (lists.blocks : Multiset Nat) rest).trans
      (Multiset.le_add_left _ _)) (inv.blocks_nodup geometry)
  exact ⟨Multiset.coe_nodup.mp nodup, detachedInv.minAligned,
    fun block member => (ofClass block member).2.2, detachedInv.lower, detachedInv.upper,
    fun block member => headersOk _ (ofClass block member).1⟩

/-- The blocks that are released are those of the released chunks. -/
theorem released_eq (geometry : Geometry sizeClass)
    (countable : Countable sizeClass lists.minChunkAddr lists.slots headers lists.blocks)
    (counted : CountedBlocks sizeClass lists.minChunkAddr headers lists.blocks count) :
    ((lists.blocks.filter (released sizeClass lists.blocks) : List Nat) : Multiset Nat) =
      (count.freeChunks.flatMap (chunkBlocks sizeClass) : List Nat) := by
  have aligned : ∀ chunk ∈ count.freeChunks, chunk % chunkSize = 0 := by
    intro chunk isFree
    obtain ⟨⟨block, _, isChunk⟩, _⟩ := (counted.free chunk).mp isFree
    exact isChunk ▸ chunkOf_mod block
  have flatNodup : (count.freeChunks.flatMap (chunkBlocks sizeClass)).Nodup :=
    flatMap_nodup_of_owner chunkOf counted.nodup
      (fun chunk _ => chunkBlocks_nodup geometry chunk)
      fun chunk isFree block member =>
        (chunk_of_mem_chunkBlocks geometry (aligned chunk isFree) member).1
  rw [Multiset.coe_eq_coe, List.perm_ext_iff_of_nodup (countable.nodup.filter _) flatNodup]
  intro block
  rw [List.mem_filter, List.mem_flatMap, released, decide_eq_true_eq]
  constructor
  · rintro ⟨member, releasable⟩
    exact ⟨chunkOf block, (counted.free _).mpr ⟨⟨block, member, rfl⟩, releasable⟩,
      countable.inChunk block member⟩
  · rintro ⟨chunk, isFree, member⟩
    have releasable := ((counted.free chunk).mp isFree).2
    have isChunk : chunkOf block = chunk :=
      (chunk_of_mem_chunkBlocks geometry (aligned chunk isFree) member).1
    exact ⟨releasable block member, isChunk ▸ releasable⟩

/-- Chunks with blocks in the tails are not released. -/
theorem tail_chunk_not_free (geometry : Geometry sizeClass)
    (inv : ClassInv sizeClass cs lastWord fetching
      (rest + (lists.blocks : Multiset Nat)) tails)
    {tail chunk number : Nat} (isTail : tail ∈ tails) (isChunk : chunk ∈ cs.chunks)
    (positive : 0 < number) (inChunk : number < numBlocksInChunk sizeClass)
    (position : tail = tailStart sizeClass chunk number) :
    ¬ Releasable sizeClass lists.blocks chunk := by
  intro releasable
  have aligned := (inv.central.aligned chunk isChunk).1
  have blocksEq : blocksFrom sizeClass tail = number := by
    rw [position, blocksFrom_tailStart geometry aligned inChunk.le positive]
  have inTail : tail ∈ tailBlocks sizeClass tail :=
    mem_run.mpr ⟨0, by omega, by simp⟩
  have inStock : tail ∈ cs.live + cs.cached + cs.central.stock sizeClass tails := by
    refine Multiset.mem_add.mpr (.inr (Multiset.mem_add.mpr (.inr ?_)))
    exact Multiset.mem_coe.mpr (List.mem_flatMap.mpr ⟨tail, isTail, inTail⟩)
  have ownChunk := (inv.chunk_of_mem geometry (Multiset.mem_add.mpr (.inl inStock))).2.2
  have sameChunk : tail / chunkSize * chunkSize = chunk :=
    (chunk_of_mem_run geometry aligned inChunk.le position
      (mem_run.mpr ⟨0, positive, by simp⟩)).1
  rw [sameChunk] at ownChunk
  have inDetached : tail ∈ rest + (lists.blocks : Multiset Nat) :=
    Multiset.mem_add.mpr (.inr (Multiset.mem_coe.mpr (releasable tail ownChunk)))
  exact Multiset.disjoint_left.mp
    (Multiset.nodup_add.mp (inv.blocks_nodup geometry)).2.2 inStock inDetached

end ClassInv

/-- The lists of the central cache after a squeeze that loses nothing. -/
structure Kept (sizeClass : Nat) (lists : Detached) (cc : CentralCache) (counted : Bool)
    (count : ChunkCount) (firstBatch : List (List Nat)) (freeList : List Nat)
    (freeListSize : Nat) : Prop where
  batches : ∀ batch ∈ firstBatch, batch ∈ lists.batches ∨ batch ∈ cc.firstBatch
  size : freeListSize = (cc.freeListSize + (freeList.length - cc.freeList.length)) % 2 ^ 32
  loose : freeList.length = looseCount sizeClass lists counted + cc.freeList.length
  stock : ((firstBatch.flatten : List Nat) : Multiset Nat) + (freeList : Multiset Nat) +
      (count.freeChunks.flatMap (chunkBlocks sizeClass) : List Nat) =
    (lists.blocks : Multiset Nat) + ((cc.firstBatch.flatten : List Nat) : Multiset Nat) +
      (cc.freeList : Multiset Nat)

theorem GaveBack.kept {cc : CentralCache} {isCounted : Bool} {firstBatch : List (List Nat)}
    {freeList : List Nat} {freeListSize : Nat} (geometry : Geometry sizeClass)
    (countable : Countable sizeClass lists.minChunkAddr lists.slots headers lists.blocks)
    (gaveBack : GaveBack sizeClass headers lists cc isCounted count firstBatch freeList
      freeListSize)
    (size : lists.freeListSize = lists.freeList.length % 2 ^ 32)
    (keepsAll : LosesNothing sizeClass lists cc.freeList isCounted) :
    Kept sizeClass lists cc isCounted count firstBatch freeList freeListSize := by
  rcases gaveBack.lists with ⟨noChunk, rfl, rfl, rfl⟩ | ⟨found, rfl, rfl, rfl⟩
  · have notFound : ¬ FindsFree sizeClass lists isCounted :=
      fun finds => gaveBack.found.mpr finds noChunk
    refine ⟨fun batch member => List.mem_append.mp member, ?_, ?_, ?_⟩
    · rw [List.length_append, size]
      omega
    · rw [List.length_append, looseCount, if_neg notFound]
    · rw [noChunk, Detached.blocks]
      simp only [List.flatten_append, ← Multiset.coe_add, List.flatMap_nil,
        Multiset.coe_nil]
      abel
  · have counted := gaveBack.counted found
    have finds := gaveBack.found.mp found
    obtain ⟨short, noCentral⟩ := keepsAll finds
    have leftEq : leftover (released sizeClass lists.blocks) (batchSize sizeClass + 1)
        lists.batches lists.freeList = relinked sizeClass lists := by
      exact foldl_accumulate_short (by simpa [relinked] using short)
    have freeListEq : (if relinked sizeClass lists = [] then [] else
        relinked sizeClass lists ++ cc.freeList) =
        relinked sizeClass lists ++ cc.freeList := by
      split_ifs with isEmpty
      · rw [isEmpty, noCentral isEmpty]
        rfl
      · rfl
    rw [leftEq, freeListEq]
    have split := relink_split (released sizeClass lists.blocks) lists.batches
      lists.freeList
    refine ⟨?_, ?_, ?_, ?_⟩
    · intro batch isBatch
      rcases List.mem_append.mp isBatch with isKept | isCentral
      · exact .inl (List.mem_of_mem_filter isKept)
      · exact .inr isCentral
    · rw [List.length_append]
      omega
    · rw [List.length_append, looseCount, if_pos finds]
    · change ((lists.batches.filter (keeps (released sizeClass lists.blocks))).flatten :
        Multiset Nat) + (relinked sizeClass lists : Multiset Nat) +
        ((lists.blocks.filter (released sizeClass lists.blocks) : List Nat) :
          Multiset Nat) = (lists.blocks : Multiset Nat) at split
      rw [← split, ← ClassInv.released_eq geometry countable counted, List.flatten_append,
        ← Multiset.coe_add, ← Multiset.coe_add]
      abel

/-- What the second locked section of a squeeze does that loses nothing. -/
theorem ClassInv.giveBack (geometry : Geometry sizeClass)
    (inv : ClassInv sizeClass cs lastWord fetching
      (rest + (lists.blocks : Multiset Nat)) tails)
    (detachedInv : DetachedInv sizeClass lists)
    (headersOk : ∀ chunk ∈ cs.chunks, headers chunk = sizeClass)
    {counted : Bool} (keepsAll : LosesNothing sizeClass lists cs.central.freeList counted) :
    ∃ count cc, lists.giveBack sizeClass headers cs.central counted = some (count, cc) ∧
      (∀ chunk ∈ count.freeChunks,
        chunk ∈ cs.chunks ∧ Releasable sizeClass lists.blocks chunk) ∧
      count.freeChunks.Nodup ∧
      (∀ chunk ∉ count.freeChunks, count.headers chunk = headers chunk) ∧
      (count.freeChunks ≠ [] ↔ FindsFree sizeClass lists counted) ∧
      cc.freeList.length = looseCount sizeClass lists counted + cs.central.freeList.length ∧
      cc.stock sizeClass tails + (count.freeChunks.flatMap (chunkBlocks sizeClass) :
          Multiset Nat) =
        cs.central.stock sizeClass tails + (lists.blocks : Multiset Nat) ∧
      ClassInv sizeClass { cs with
        central := cc
        chunks := cs.chunks.filter (· ∉ count.freeChunks) } lastWord fetching rest tails := by
  have nodup := inv.blocks_nodup geometry
  have countable := inv.countable geometry detachedInv headersOk
  have large := detachedInv.large
  have batchesEq := batches_of_not_small cs.central large
  have stored : ((lists.blocks ++ (cs.central.firstBatch.flatten ++ cs.central.freeList) :
      List Nat) : Multiset Nat) ≤
      cs.live + cs.cached + cs.central.stock sizeClass tails +
        (rest + (lists.blocks : Multiset Nat)) := by
    rw [CentralCache.stock, batchesEq, ← Multiset.coe_add, ← Multiset.coe_add]
    refine le_trans (Multiset.le_add_right _ (cs.live + cs.cached + rest +
      (tails.flatMap (tailBlocks sizeClass) : Multiset Nat))) (le_of_eq ?_)
    abel
  have storedNodup := Multiset.coe_nodup.mp (Multiset.nodup_of_le stored nodup)
  have nonempty : ∀ batch ∈ lists.batches ++ cs.central.firstBatch, batch ≠ [] := by
    intro batch member
    apply List.ne_nil_of_length_pos
    rcases List.mem_append.mp member with isDetached | isCentral
    · rw [detachedInv.full batch isDetached]
      omega
    · rw [inv.central.batches_full batch (by rwa [batchesEq])]
      omega
  have nonzero : ∀ block ∈ lists.blocks ++
      (cs.central.firstBatch.flatten ++ cs.central.freeList), block ≠ 0 := by
    intro block member isZero
    have inside := (inv.chunk_of_mem geometry
      (Multiset.mem_of_le stored (Multiset.mem_coe.mpr member))).2.1
    rw [isZero] at inside
    exact inside rfl
  obtain ⟨count, firstBatch, freeList, freeListSize, result, gaveBack⟩ :=
    Detached.giveBack_spec geometry countable storedNodup nonempty nonzero counted
  have kept := gaveBack.kept geometry countable detachedInv.size keepsAll
  have freeChunk : ∀ chunk ∈ count.freeChunks,
      chunk ∈ cs.chunks ∧ Releasable sizeClass lists.blocks chunk := by
    intro chunk isFree
    obtain ⟨⟨block, member, isChunk⟩, releasable⟩ :=
      ((gaveBack.counted (List.ne_nil_of_mem isFree)).free chunk).mp isFree
    have ofClass := inv.chunk_of_mem geometry (Multiset.mem_add.mpr (.inr
      (Multiset.mem_add.mpr (.inr (Multiset.mem_coe.mpr member)))))
    exact ⟨isChunk ▸ ofClass.1, releasable⟩
  have freeNodup : count.freeChunks.Nodup := by
    by_cases found : count.freeChunks ≠ []
    · exact (gaveBack.counted found).nodup
    · rw [not_not.mp found]
      exact List.nodup_nil
  have chunksSplit : (cs.chunks : Multiset Nat) =
      ((cs.chunks.filter (· ∉ count.freeChunks) : List Nat) : Multiset Nat) +
        (count.freeChunks : Multiset Nat) := by
    have freeEq : ((cs.chunks.filter (· ∈ count.freeChunks) : List Nat) : Multiset Nat) =
        (count.freeChunks : Multiset Nat) := by
      rw [Multiset.coe_eq_coe, List.perm_ext_iff_of_nodup (inv.nodup.filter _) freeNodup]
      intro chunk
      simp only [List.mem_filter, decide_eq_true_eq]
      exact ⟨fun member => member.2, fun isFree => ⟨(freeChunk chunk isFree).1, isFree⟩⟩
    rw [← freeEq, add_comm, Multiset.coe_add, Multiset.coe_eq_coe]
    simpa using (List.filter_append_perm (· ∈ count.freeChunks) cs.chunks).symm
  have keptChunk : ∀ chunk ∈ cs.chunks.filter (· ∉ count.freeChunks), chunk ∈ cs.chunks :=
    fun chunk member => List.mem_of_mem_filter member
  have newBatches : ({ cs.central with firstBatch, freeList, freeListSize } :
      CentralCache).batches sizeClass = firstBatch := batches_of_not_small _ large
  refine ⟨count, _, result, freeChunk, freeNodup, gaveBack.headers, gaveBack.found, kept.loose,
    ?_, inv.caches, ?_, inv.nodup.filter _, ?_⟩
  · have stock := kept.stock
    simp only [CentralCache.stock, batchesEq, newBatches]
    calc _ = (tails.flatMap (tailBlocks sizeClass) : Multiset Nat) +
          (((firstBatch.flatten : List Nat) : Multiset Nat) + (freeList : Multiset Nat) +
            (count.freeChunks.flatMap (chunkBlocks sizeClass) : List Nat)) := by abel
      _ = _ := by
          rw [stock]
          abel
  · refine ⟨?_, ?_, ?_, ?_, ?_, ?_, ?_⟩
    · rw [newBatches]
      intro batch member
      rcases kept.batches batch member with isDetached | isCentral
      · exact detachedInv.full batch isDetached
      · exact inv.central.batches_full batch (by rwa [batchesEq])
    · intro small
      rw [large] at small
      cases small
    · have size := kept.size
      have loose := kept.loose
      have central := inv.central.freeListSize
      simp only at size ⊢
      omega
    · exact fun chunk member => inv.central.aligned chunk (keptChunk chunk member)
    · exact fun chunk member => inv.central.bounds chunk (keptChunk chunk member)
    · refine ⟨fun someChunk => inv.central.minChunkAddr.1 fun noChunk => someChunk ?_,
        inv.central.minChunkAddr.2⟩
      rw [noChunk]
      rfl
    · have tailsOf := inv.central.tails
      refine ⟨tailsOf.chain, tailsOf.last, ?_, tailsOf.ends, tailsOf.large⟩
      intro tail isTail
      obtain ⟨chunk, isChunk, number, positive, inChunk, position⟩ :=
        tailsOf.position tail isTail
      refine ⟨chunk, List.mem_filter.mpr ⟨isChunk, decide_eq_true fun isFree => ?_⟩,
        number, positive, inChunk, position⟩
      exact inv.tail_chunk_not_free geometry isTail isChunk positive inChunk position
        (freeChunk chunk isFree).2
  · have ledger := inv.ledger
    have stock := kept.stock
    have chunkBlocksSplit : ((cs.chunks.flatMap (chunkBlocks sizeClass) : List Nat) :
        Multiset Nat) =
        ((cs.chunks.filter (· ∉ count.freeChunks)).flatMap (chunkBlocks sizeClass) :
          List Nat) + (count.freeChunks.flatMap (chunkBlocks sizeClass) : List Nat) := by
      rw [Multiset.coe_add, ← List.flatMap_append, Multiset.coe_eq_coe]
      exact (Multiset.coe_eq_coe.mp (by rw [chunksSplit, Multiset.coe_add])).flatMap_right _
    simp only [ClassState.cached, ClassState.blocks, CentralCache.stock, batchesEq,
      newBatches] at ledger ⊢
    apply add_right_cancel
      (b := (count.freeChunks.flatMap (chunkBlocks sizeClass) : Multiset Nat))
    rw [← chunkBlocksSplit, ← ledger]
    calc _ = cs.live + (∑ thread, (cs.caches thread).stock) + rest +
          (tails.flatMap (tailBlocks sizeClass) : Multiset Nat) +
          (((firstBatch.flatten : List Nat) : Multiset Nat) + (freeList : Multiset Nat) +
            (count.freeChunks.flatMap (chunkBlocks sizeClass) : List Nat)) := by abel
      _ = _ := by
          rw [stock]
          abel

end Class

end MallocSurvey.Ltalloc
