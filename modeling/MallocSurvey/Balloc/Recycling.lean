import MallocSurvey.Balloc.Buckets
import Mathlib.Data.List.Nodup

/-! # What the buckets give and get back

As long as nothing is freed, the entries of a bucket and its live blocks are those that
`init_buckets` has made. -/

namespace MallocSurvey.Balloc

open Library

variable {env : Environment} {state next : State} {heap : Heap} {i size : Nat} {event : Event}

/-- The blocks of `init_buckets` in a bucket. -/
def made (env : Environment) (i : Nat) : List Nat :=
  (List.range blocksToAllocate).map (env.place i)

/-- The live blocks of a bucket. -/
def held (i : Nat) (live : List Live) : List Nat :=
  (live.filter fun block => bucketOf block.size = some i).map fun block =>
    block.ptr - sizeofEntry

structure Inv (env : Environment) (state : State) : Prop where
  blocks : ∀ i < bucketCount,
    (state.heap.lists (env.bucket i) ++ held i state.live).Perm (made env i)
  live : ∀ block ∈ state.live, sizeofEntry ≤ block.ptr ∧ ∃ i, bucketOf block.size = some i
  apart : state.live.Pairwise fun left right => Apart left.ptr left.size right.ptr right.size

theorem bucket_inj {k : Nat} (same : env.bucket i = env.bucket k) : i = k := by
  unfold Environment.bucket sizeofList at same
  omega

theorem bucketOf_spec (isBucket : bucketOf size = some i) :
    i < bucketCount ∧ size ≤ bucketSize i := by
  unfold bucketOf at isBucket
  obtain ⟨fits, inRange, _⟩ := List.find?_range_eq_some.mp isBucket
  exact ⟨List.mem_range.mp inRange, of_decide_eq_true fits⟩

/-! ## The first blocks -/

theorem fillBucket_lists (i count : Nat) (heap : Heap) (root : Nat) :
    (fillBucket env i count heap).lists root =
      if root = env.bucket i then
        ((List.range count).map (env.place i)).reverse ++ heap.lists root
      else heap.lists root := by
  induction count with
  | zero =>
      rw [fillBucket, List.range_zero]
      split
      · rfl
      · rfl
  | succ count induction =>
      rw [fillBucket]
      unfold Heap.pushEntryList
      dsimp only
      by_cases isRoot : root = env.bucket i
      · rw [isRoot, Function.update_self, if_pos rfl, List.range_succ, List.map_append,
          List.reverse_append]
        rw [isRoot, if_pos rfl] at induction
        rw [induction]
        rfl
      · rw [Function.update_of_ne isRoot, if_neg isRoot]
        rw [if_neg isRoot] at induction
        exact induction

theorem initBuckets_lists (heap : Heap) {count : Nat} (inRange : i < count) :
    (initBuckets env count heap).lists (env.bucket i) = (made env i).reverse := by
  induction count with
  | zero => exact absurd inRange (Nat.not_lt_zero i)
  | succ count induction =>
      rw [initBuckets, fillBucket_lists]
      by_cases isLast : i = count
      · rw [isLast, if_pos rfl]
        unfold Heap.initializeListHead
        dsimp only
        rw [Function.update_self, List.append_nil]
        rfl
      · have different : env.bucket i ≠ env.bucket count := fun same => isLast (bucket_inj same)
        rw [if_neg different]
        unfold Heap.initializeListHead
        dsimp only
        rw [Function.update_of_ne different]
        exact induction (by omega)

theorem inv_init (init : (machine env).Init state) : Inv env state := by
  obtain ⟨lists, list, isState⟩ := init
  subst isState
  refine ⟨?_, ?_, .nil⟩
  · intro i inRange
    rw [initBuckets_lists _ inRange]
    have none_held : held i [] = [] := rfl
    rw [none_held, List.append_nil]
    exact List.reverse_perm _
  · exact fun block member => absurd member List.not_mem_nil

/-! ## `balloc` -/

theorem ballocFrom_eq (heap : Heap) (size : Nat) (buckets : List Nat) :
    ballocFrom env heap size buckets =
      match buckets.find? fun i => size ≤ bucketSize i with
      | none => some (0, heap)
      | some i =>
          let (p, heap) := heap.popEntryList (env.bucket i)
          if p = 0 then none
          else some (p + sizeofEntry,
            { heap with list := Function.update heap.list p (env.bucket i) }) := by
  induction buckets with
  | nil => rfl
  | cons first rest induction =>
      rw [ballocFrom]
      by_cases fits : size ≤ bucketSize first
      · rw [if_pos fits, List.find?_cons_of_pos (by simpa using fits)]
      · rw [if_neg fits, List.find?_cons_of_neg (by simpa using fits)]
        exact induction

theorem balloc_large (tooLarge : bucketOf size = none) : balloc env heap size = some (0, heap) := by
  unfold balloc
  rw [ballocFrom_eq]
  unfold bucketOf at tooLarge
  rw [tooLarge]

theorem balloc_exhausted (isBucket : bucketOf size = some i)
    (isEmpty : heap.lists (env.bucket i) = []) : balloc env heap size = none := by
  unfold balloc
  rw [ballocFrom_eq]
  unfold bucketOf at isBucket
  rw [isBucket]
  unfold Heap.popEntryList
  dsimp only
  rw [isEmpty]
  rfl

theorem balloc_entry (isBucket : bucketOf size = some i) {entry : Nat} {rest : List Nat}
    (isList : heap.lists (env.bucket i) = entry :: rest) (notNull : entry ≠ 0) :
    balloc env heap size = some (entry + sizeofEntry,
      ⟨Function.update heap.lists (env.bucket i) rest,
        Function.update heap.list entry (env.bucket i)⟩) := by
  unfold balloc
  rw [ballocFrom_eq]
  unfold bucketOf at isBucket
  rw [isBucket]
  unfold Heap.popEntryList
  dsimp only
  rw [isList]
  exact if_neg notNull

/-! ## The blocks of a state -/

theorem place_inj {j k : Nat} (inRange : i < bucketCount) (jLt : j < blocksToAllocate)
    (kLt : k < blocksToAllocate) (same : env.place i j = env.place i k) : j = k := by
  by_contra different
  have apart := env.apart i inRange j jLt i inRange k kLt (.inr different)
  unfold Apart sizeofEntry at apart
  omega

theorem made_nodup (inRange : i < bucketCount) : (made env i).Nodup := by
  apply List.Nodup.map_on _ List.nodup_range
  intro j jIn k kIn same
  exact place_inj inRange (List.mem_range.mp jIn) (List.mem_range.mp kIn) same

theorem mem_held {block : Live} {live : List Live} (member : block ∈ live)
    (isBucket : bucketOf block.size = some i) : block.ptr - sizeofEntry ∈ held i live :=
  List.mem_map_of_mem (List.mem_filter.mpr ⟨member, decide_eq_true isBucket⟩)

theorem Inv.entry (inv : Inv env state) (inRange : i < bucketCount) {entry : Nat}
    (member : entry ∈ state.heap.lists (env.bucket i) ++ held i state.live) :
    ∃ j < blocksToAllocate, entry = env.place i j := by
  have isMade := (inv.blocks i inRange).mem_iff.mp member
  obtain ⟨j, inBucket, isPlace⟩ := List.mem_map.mp isMade
  exact ⟨j, List.mem_range.mp inBucket, isPlace.symm⟩

theorem Inv.block (inv : Inv env state) {block : Live} (member : block ∈ state.live)
    (isBucket : bucketOf block.size = some i) :
    ∃ j < blocksToAllocate, block.ptr = env.place i j + sizeofEntry := by
  have large := (inv.live block member).1
  obtain ⟨j, inBucket, isPlace⟩ := inv.entry (bucketOf_spec isBucket).1
    (List.mem_append_right _ (mem_held member isBucket))
  exact ⟨j, inBucket, by omega⟩

/-- The first entry of a bucket is not the block of a live pointer. -/
theorem Inv.fresh (inv : Inv env state) {entry : Nat} {rest : List Nat}
    (isBucket : bucketOf size = some i)
    (isList : state.heap.lists (env.bucket i) = entry :: rest) {block : Live}
    (member : block ∈ state.live) :
    Apart (entry + sizeofEntry) size block.ptr block.size := by
  obtain ⟨inRange, fits⟩ := bucketOf_spec isBucket
  obtain ⟨large, k, isOther⟩ := inv.live block member
  obtain ⟨kRange, otherFits⟩ := bucketOf_spec isOther
  have isFirst : entry ∈ state.heap.lists (env.bucket i) := isList ▸ List.mem_cons_self
  obtain ⟨j, jLt, isPlace⟩ := inv.entry inRange (List.mem_append_left _ isFirst)
  obtain ⟨otherJ, otherLt, otherPlace⟩ := inv.block member isOther
  have different : i ≠ k ∨ j ≠ otherJ := by
    by_contra same
    obtain ⟨sameI, sameJ⟩ := not_or.mp same
    have sameBucket : i = k := not_not.mp sameI
    subst sameBucket
    have nodup := (inv.blocks i inRange).nodup_iff.mpr (made_nodup inRange)
    have isHeld := mem_held member isOther
    have sameEntry : entry = block.ptr - sizeofEntry := by
      rw [isPlace, otherPlace, not_not.mp sameJ, Nat.add_sub_cancel]
    exact (List.nodup_append.mp nodup).2.2 entry isFirst _ isHeld sameEntry
  have apart := env.apart i inRange j jLt k kRange otherJ otherLt different
  rw [← isPlace] at apart
  unfold Apart at *
  omega

/-! ## Steps -/

theorem held_cons (block : Live) (live : List Live) (k : Nat) :
    held k (block :: live) = if bucketOf block.size = some k then
      (block.ptr - sizeofEntry) :: held k live else held k live := by
  unfold held
  by_cases isBucket : bucketOf block.size = some k
  · rw [if_pos isBucket, List.filter_cons_of_pos (by simpa using isBucket), List.map_cons]
  · rw [if_neg isBucket, List.filter_cons_of_neg (by simpa using isBucket)]

/-- The state after `balloc` has taken the first entry of a bucket. -/
theorem Inv.taken (inv : Inv env state) {entry : Nat} {rest : List Nat}
    (isBucket : bucketOf size = some i)
    (isList : state.heap.lists (env.bucket i) = entry :: rest) (list : Nat → Nat) :
    Inv env ⟨⟨Function.update state.heap.lists (env.bucket i) rest, list⟩,
      ⟨entry + sizeofEntry, size⟩ :: state.live⟩ := by
  refine ⟨?_, ?_, ?_⟩
  · intro k inRange
    dsimp only
    rw [held_cons]
    dsimp only
    rw [isBucket, Nat.add_sub_cancel]
    by_cases same : i = k
    · subst same
      rw [if_pos rfl, Function.update_self]
      have blocks := inv.blocks i inRange
      rw [isList] at blocks
      exact List.perm_middle.trans blocks
    · have notSame : env.bucket k ≠ env.bucket i := fun isSame => same (bucket_inj isSame).symm
      rw [if_neg (fun isSome => same (Option.some.inj isSome)), Function.update_of_ne notSame]
      exact inv.blocks k inRange
  · intro block member
    rcases List.mem_cons.mp member with isNew | isOld
    · rw [isNew]
      exact ⟨Nat.le_add_left _ _, i, isBucket⟩
    · exact inv.live block isOld
  · exact .cons (fun block member => inv.fresh isBucket isList member) inv.apart

/-- What `balloc` does with a request that is served. -/
theorem Inv.balloc (inv : Inv env state) (served : Served env state (.balloc size)) :
    (bucketOf size = none ∧ balloc env state.heap size = some (0, state.heap)) ∨
      ∃ i entry rest, bucketOf size = some i ∧
        state.heap.lists (env.bucket i) = entry :: rest ∧ entry ≠ 0 ∧
        balloc env state.heap size = some (entry + sizeofEntry,
          ⟨Function.update state.heap.lists (env.bucket i) rest,
            Function.update state.heap.list entry (env.bucket i)⟩) := by
  cases isBucket : bucketOf size with
  | none => exact .inl ⟨rfl, balloc_large isBucket⟩
  | some i =>
      have notEmpty := served i isBucket
      cases isList : state.heap.lists (env.bucket i) with
      | nil => exact absurd isList notEmpty
      | cons entry rest =>
          have inRange := (bucketOf_spec isBucket).1
          have isFirst : entry ∈ state.heap.lists (env.bucket i) := isList ▸ List.mem_cons_self
          obtain ⟨j, jLt, isPlace⟩ := inv.entry inRange (List.mem_append_left _ isFirst)
          have positive := (env.placed i inRange j jLt).1
          have notNull : entry ≠ 0 := by omega
          exact .inr ⟨i, entry, rest, rfl, isList, notNull,
            balloc_entry isBucket isList notNull⟩

theorem step_balloc {p : Nat} (result : balloc env state.heap size = some (p, heap)) :
    step env state (.balloc size) =
      some ⟨heap, if p = 0 then state.live else ⟨p, size⟩ :: state.live⟩ := by
  change (balloc env state.heap size).bind _ = _
  rw [result]
  rfl

theorem inv_step (inv : Inv env state) (served : Served env state event)
    (result : step env state event = some next) : Inv env next := by
  cases event with
  | balloc size =>
      rcases inv.balloc served with ⟨_, isNull⟩ | ⟨i, entry, rest, isBucket, isList, _, isEntry⟩
      · cases result.symm.trans (step_balloc isNull)
        exact inv
      · cases result.symm.trans (step_balloc isEntry)
        exact inv.taken isBucket isList _
  | bfree block => exact absurd served not_false

/-! ## Runs -/

/-- Sixteen blocks belong to each bucket, the live blocks are apart, and when none is live each
bucket serves sixteen requests. -/
structure Sound (env : Environment) (state : State) : Prop where
  count : ∀ i < bucketCount,
    (state.heap.lists (env.bucket i)).length + (held i state.live).length = blocksToAllocate
  apart : state.live.Pairwise fun left right => Apart left.ptr left.size right.ptr right.size
  serves : state.live = [] → ∀ i < bucketCount, ∀ sizes : List Nat,
    sizes.length = blocksToAllocate → (∀ size ∈ sizes, bucketOf size = some i) →
    ∃ results heap, ballocs env state.heap sizes = some (results, heap) ∧ ∀ p ∈ results, p ≠ 0

/-- A bucket serves as many requests as it has entries. -/
theorem ballocs_served (sizes : List Nat) (requests : ∀ size ∈ sizes, bucketOf size = some i)
    (enough : sizes.length ≤ (heap.lists (env.bucket i)).length)
    (notNull : ∀ entry ∈ heap.lists (env.bucket i), entry ≠ 0) :
    ∃ results last, ballocs env heap sizes = some (results, last) ∧ ∀ p ∈ results, p ≠ 0 := by
  induction sizes generalizing heap with
  | nil => exact ⟨[], heap, rfl, fun p member => absurd member List.not_mem_nil⟩
  | cons size rest induction =>
      have isBucket := requests size List.mem_cons_self
      cases isList : heap.lists (env.bucket i) with
      | nil =>
          rw [isList] at enough
          exact absurd enough (Nat.not_succ_le_zero _)
      | cons entry entries =>
          rw [isList] at enough notNull
          have first := balloc_entry isBucket isList (notNull entry List.mem_cons_self)
          obtain ⟨left, isLeft⟩ : ∃ left : Heap, left =
              ⟨Function.update heap.lists (env.bucket i) entries,
                Function.update heap.list entry (env.bucket i)⟩ := ⟨_, rfl⟩
          have isEntries : left.lists (env.bucket i) = entries := by
            rw [isLeft]
            exact Function.update_self ..
          rw [← isLeft] at first
          obtain ⟨others, last, isRest, allFull⟩ := @induction left
            (fun size member => requests size (List.mem_cons_of_mem _ member))
            (by
              rw [isEntries]
              exact Nat.le_of_succ_le_succ enough)
            (by
              rw [isEntries]
              exact fun other member => notNull other (List.mem_cons_of_mem _ member))
          refine ⟨(entry + sizeofEntry) :: others, last, ?_, ?_⟩
          · rw [ballocs, first]
            dsimp only [Option.bind_eq_bind, Option.bind_some]
            rw [isRest]
            rfl
          · intro p member
            rcases List.mem_cons.mp member with isFirst | isOther
            · rw [isFirst]
              exact Nat.succ_ne_zero _
            · exact allFull p isOther

theorem Inv.count (inv : Inv env state) (inRange : i < bucketCount) :
    (state.heap.lists (env.bucket i)).length + (held i state.live).length =
      blocksToAllocate := by
  have same := (inv.blocks i inRange).length_eq
  unfold made at same
  rwa [List.length_append, List.length_map, List.length_range] at same

theorem Inv.sound (inv : Inv env state) : Sound env state := by
  refine ⟨fun i inRange => inv.count inRange, inv.apart, ?_⟩
  intro noneLive i inRange sizes isLength requests
  have count := inv.count inRange
  have none_held : (held i state.live).length = 0 := by
    rw [noneLive]
    rfl
  apply ballocs_served sizes requests
  · omega
  · intro entry member
    obtain ⟨j, jLt, isPlace⟩ := inv.entry inRange (List.mem_append_left _ member)
    have positive := (env.placed i inRange j jLt).1
    omega

theorem Inv.recycles_iff (inv : Inv env state) (enabled : Enabled state event) :
    Recycles env state event ↔ Served env state event := by
  cases event with
  | balloc size =>
      constructor
      · rintro ⟨p, heap, isResult, _⟩ i isBucket isEmpty
        rw [balloc_exhausted isBucket isEmpty] at isResult
        cases isResult
      · intro served
        rcases inv.balloc served with
          ⟨_, isNull⟩ | ⟨i, entry, rest, isBucket, isList, _, isEntry⟩
        · exact ⟨_, _, isNull, fun notNull => absurd rfl notNull⟩
        · obtain ⟨inRange, fits⟩ := bucketOf_spec isBucket
          have isFirst : entry ∈ state.heap.lists (env.bucket i) := isList ▸ List.mem_cons_self
          obtain ⟨j, jLt, isPlace⟩ := inv.entry inRange (List.mem_append_left _ isFirst)
          refine ⟨_, _, isEntry, fun _ => ⟨⟨i, inRange, j, jLt, ?_, fits⟩, ?_⟩⟩
          · rw [isPlace]
          · exact fun block member => inv.fresh isBucket isList member
  | bfree block =>
      constructor
      · intro returned
        obtain ⟨large, i, isBucket⟩ := inv.live block enabled
        obtain ⟨j, jLt, isPlace⟩ := inv.block enabled isBucket
        have inRange := (bucketOf_spec isBucket).1
        have outside := (env.placed i inRange j jLt).2
        have notBucket : env.bucket i ≠ block.ptr - sizeofEntry := by
          rw [isPlace, Nat.add_sub_cancel]
          unfold Environment.bucket
          unfold Apart sizeofEntry sizeofList bucketCount at *
          omega
        have isReturned := returned i isBucket
        unfold bfree Heap.pushEntryList at isReturned
        dsimp only at isReturned
        rw [Function.update_of_ne notBucket] at isReturned
        exact absurd (congrArg List.length isReturned) (Nat.ne_of_lt (Nat.lt_succ_self _))
      · exact fun impossible => absurd impossible not_false

/-- In the runs without `bfree` in which no bucket is exhausted the blocks are recycled, and
the first step that is different fails. -/
theorem balloc_recycles_iff (reachable : (machine env).Reachable (Served env) state) :
    Sound env state ∧ ∀ event, Enabled state event →
      (Recycles env state event ↔ Served env state event) := by
  have inv : Inv env state := by
    apply Machine.Reachable.invariant _ _ reachable
    · exact fun start isInit => inv_init isInit
    · exact fun state event next inv _ served result => inv_step inv served result
  exact ⟨inv.sound, fun event enabled => inv.recycles_iff enabled⟩

def sampleEnvironment : Environment where
  buckets := 1024
  place i j := 4096 + i * 4096 + j * 128
  placed := by decide
  apart i inRange j jLt otherI otherRange otherJ otherLt different := by
    have small : ∀ i < bucketCount, bucketSize i ≤ 64 := by decide
    have first := small i inRange
    have second := small otherI otherRange
    unfold Apart sizeofEntry
    unfold blocksToAllocate at jLt otherLt
    omega

def sampleStart : State := ⟨initBuckets sampleEnvironment bucketCount ⟨fun _ => [], fun _ => 0⟩, []⟩

theorem sampleStart_init : (machine sampleEnvironment).Init sampleStart := ⟨_, _, rfl⟩

theorem balloc_recycles_sample : Sound sampleEnvironment sampleStart ∧
    ∀ event, Enabled sampleStart event →
      (Recycles sampleEnvironment sampleStart event ↔ Served sampleEnvironment sampleStart event) :=
  balloc_recycles_iff (.init sampleStart_init)

/-- A block of 8 bytes that is freed is lost, and its bucket has fifteen left. -/
theorem bfree_loses :
    ((step sampleEnvironment sampleStart (.balloc 8)).map fun state => state.live) =
      some [⟨6032, 8⟩] ∧
    ((do
      let state ← step sampleEnvironment sampleStart (.balloc 8)
      let state ← step sampleEnvironment state (.bfree ⟨6032, 8⟩)
      return (state.live, (state.heap.lists (sampleEnvironment.bucket 0)).length)) : Option _) =
      some ([], 15) := by
  decide

end MallocSurvey.Balloc
