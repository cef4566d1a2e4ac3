import MallocSurvey.Library.Transition
import MallocSurvey.Gjalloc.Page
import Mathlib.Data.Nat.Bitwise

/-! # The hash table of the pages

A page is in the chain for the hash of its last block. -/

namespace MallocSurvey.Gjalloc

open Library

structure HashTable where
  allocated : Nat
  buckets : Nat → List Nat

/-- `MIX`. -/
def mix (t : Nat) : Nat :=
  let t := t ^^^ ((t >>> 20) ^^^ (t >>> 12))
  t ^^^ ((t >>> 7) ^^^ (t >>> 4))

def hash1 (magnitude ptr : Nat) : Nat := mix (ptr >>> magnitude) % 2 ^ 32

def hash2 (magnitude ptr : Nat) : Nat := mix ((ptr >>> magnitude + 1) % 2 ^ 64) % 2 ^ 32

namespace HashTable

/-- `BA_HASH_MASK`. -/
def mask (t : HashTable) (h : Nat) : Nat := h &&& (t.allocated - 1)

/-- The bucket of a page. -/
def bucketOf (l : Layout) (magnitude : Nat) (t : HashTable) (p : Nat) : Nat :=
  t.mask (hash1 magnitude (l.lastBlock p))

def htableInsert (l : Layout) (magnitude : Nat) (t : HashTable) (p : Nat) : HashTable :=
  let b := bucketOf l magnitude t p
  { t with buckets := Function.update t.buckets b (p :: t.buckets b) }

def htableDelete (l : Layout) (magnitude : Nat) (t : HashTable) (p : Nat) : HashTable :=
  let b := bucketOf l magnitude t p
  { t with buckets := Function.update t.buckets b ((t.buckets b).erase p) }

/-- One chain is gone through, and the pages that hash to another bucket are put in front of
the chain there. -/
def splitChain (place : Nat → Nat) (n : Nat) :
    List Nat → (Nat → List Nat) → List Nat × (Nat → List Nat)
  | [], buckets => ([], buckets)
  | p :: rest, buckets =>
      if place p ≠ n then
        splitChain place n rest (Function.update buckets (place p) (p :: buckets (place p)))
      else
        let (kept, buckets) := splitChain place n rest buckets
        (p :: kept, buckets)

def splitBuckets (place : Nat → Nat) : Nat → (Nat → List Nat) → Nat → List Nat
  | 0, buckets => buckets
  | n + 1, buckets =>
      let buckets := splitBuckets place n buckets
      let (kept, buckets) := splitChain place n (buckets n) buckets
      Function.update buckets n kept

def htableGrow (l : Layout) (magnitude : Nat) (t : HashTable) : HashTable :=
  let old := t.allocated
  let allocated := 2 * old % 2 ^ 32
  let buckets := fun n => if old ≤ n ∧ n < old + old then [] else t.buckets n
  ⟨allocated, splitBuckets (bucketOf l magnitude ⟨allocated, buckets⟩) old buckets⟩

/-- A chain of the upper half goes in front of the one of the lower half. -/
def htableShrink (t : HashTable) : HashTable :=
  let allocated := t.allocated / 2
  ⟨allocated, fun n => if n < allocated then t.buckets (allocated + n) ++ t.buckets n
    else t.buckets n⟩

/-- Only the second bucket is searched if the hashes agree. -/
def htableLookup (l : Layout) (magnitude : Nat) (t : HashTable) (ptr : Nat) : Option Nat :=
  let h0 := hash1 magnitude ptr
  let h1 := hash2 magnitude ptr
  let found := if h0 = h1 then none else (t.buckets (t.mask h0)).find? fun p => l.checkPtr p ptr
  match found with
  | some p => some p
  | none => (t.buckets (t.mask h1)).find? fun p => l.checkPtr p ptr

/-- `PAGE_LOOP`. -/
def pageLoop (t : HashTable) : List Nat := (List.range t.allocated).flatMap t.buckets

def htableLinearLookup (l : Layout) (t : HashTable) (ptr : Nat) : Option Nat :=
  t.pageLoop.find? fun p => l.checkPtr p ptr

end HashTable

/-- The table holds some pages, each in the chain for its hash. -/
structure Hashed (l : Layout) (magnitude : Nat) (t : HashTable) (pages : Finset Nat) : Prop where
  power : ∃ k, t.allocated = 2 ^ k
  sound : ∀ n < t.allocated, ∀ p ∈ t.buckets n,
    p ∈ pages ∧ HashTable.bucketOf l magnitude t p = n
  complete : ∀ p ∈ pages, p ∈ t.buckets (HashTable.bucketOf l magnitude t p)
  nodup : ∀ n < t.allocated, (t.buckets n).Nodup

variable {l : Layout} {magnitude p ptr : Nat} {t : HashTable} {pages : Finset Nat}

namespace HashTable

theorem mask_eq {k : Nat} (power : t.allocated = 2 ^ k) (h : Nat) :
    t.mask h = h % t.allocated := by
  unfold mask
  rw [power, Nat.and_two_pow_sub_one_eq_mod]

end HashTable

namespace Hashed

theorem bucket_lt (hashed : Hashed l magnitude t pages) (p : Nat) :
    HashTable.bucketOf l magnitude t p < t.allocated := by
  obtain ⟨k, power⟩ := hashed.power
  unfold HashTable.bucketOf
  rw [HashTable.mask_eq power]
  exact Nat.mod_lt _ (power ▸ Nat.two_pow_pos k)

theorem mem_pageLoop (hashed : Hashed l magnitude t pages) : p ∈ t.pageLoop ↔ p ∈ pages := by
  unfold HashTable.pageLoop
  rw [List.mem_flatMap]
  constructor
  · rintro ⟨n, inTable, member⟩
    exact (hashed.sound n (List.mem_range.mp inTable) p member).1
  · intro isPage
    exact ⟨_, List.mem_range.mpr (hashed.bucket_lt p), hashed.complete p isPage⟩

theorem insert (hashed : Hashed l magnitude t pages) (fresh : p ∉ pages) :
    Hashed l magnitude (HashTable.htableInsert l magnitude t p) (Insert.insert p pages) := by
  have sameBucket : HashTable.bucketOf l magnitude (HashTable.htableInsert l magnitude t p) =
      HashTable.bucketOf l magnitude t := rfl
  refine ⟨hashed.power, ?_, ?_, ?_⟩
  · intro n inTable q member
    rw [sameBucket, Finset.mem_insert]
    by_cases isBucket : n = HashTable.bucketOf l magnitude t p
    · subst isBucket
      rw [HashTable.htableInsert] at member
      dsimp only at member
      rw [Function.update_self, List.mem_cons] at member
      rcases member with isNew | isOld
      · exact ⟨.inl isNew, isNew ▸ rfl⟩
      · have old := hashed.sound _ inTable q isOld
        exact ⟨.inr old.1, old.2⟩
    · rw [HashTable.htableInsert] at member
      dsimp only at member
      rw [Function.update_of_ne isBucket] at member
      have old := hashed.sound n inTable q member
      exact ⟨.inr old.1, old.2⟩
  · intro q isPage
    rw [sameBucket, HashTable.htableInsert]
    dsimp only
    rw [Finset.mem_insert] at isPage
    by_cases isBucket : HashTable.bucketOf l magnitude t q = HashTable.bucketOf l magnitude t p
    · rw [isBucket, Function.update_self, List.mem_cons]
      exact isPage.imp id fun isOld => isBucket ▸ hashed.complete q isOld
    · rw [Function.update_of_ne isBucket]
      refine hashed.complete q (isPage.resolve_left ?_)
      rintro rfl
      exact isBucket rfl
  · intro n inTable
    rw [HashTable.htableInsert]
    dsimp only
    by_cases isBucket : n = HashTable.bucketOf l magnitude t p
    · subst isBucket
      rw [Function.update_self, List.nodup_cons]
      exact ⟨fun member => fresh (hashed.sound _ inTable p member).1, hashed.nodup _ inTable⟩
    · rw [Function.update_of_ne isBucket]
      exact hashed.nodup n inTable

theorem delete (hashed : Hashed l magnitude t pages) :
    Hashed l magnitude (HashTable.htableDelete l magnitude t p) (pages.erase p) := by
  have sameBucket : HashTable.bucketOf l magnitude (HashTable.htableDelete l magnitude t p) =
      HashTable.bucketOf l magnitude t := rfl
  refine ⟨hashed.power, ?_, ?_, ?_⟩
  · intro n inTable q member
    rw [sameBucket, Finset.mem_erase]
    rw [HashTable.htableDelete] at member
    dsimp only at member
    by_cases isBucket : n = HashTable.bucketOf l magnitude t p
    · subst isBucket
      rw [Function.update_self, (hashed.nodup _ inTable).mem_erase_iff] at member
      have old := hashed.sound _ inTable q member.2
      exact ⟨⟨member.1, old.1⟩, old.2⟩
    · rw [Function.update_of_ne isBucket] at member
      have old := hashed.sound n inTable q member
      refine ⟨⟨?_, old.1⟩, old.2⟩
      rintro rfl
      exact isBucket old.2.symm
  · intro q isPage
    obtain ⟨different, isOld⟩ := Finset.mem_erase.mp isPage
    rw [sameBucket, HashTable.htableDelete]
    dsimp only
    by_cases isBucket : HashTable.bucketOf l magnitude t q = HashTable.bucketOf l magnitude t p
    · rw [isBucket, Function.update_self, List.mem_erase_of_ne different, ← isBucket]
      exact hashed.complete q isOld
    · rw [Function.update_of_ne isBucket]
      exact hashed.complete q isOld
  · intro n inTable
    rw [HashTable.htableDelete]
    dsimp only
    by_cases isBucket : n = HashTable.bucketOf l magnitude t p
    · subst isBucket
      rw [Function.update_self]
      exact (hashed.nodup _ inTable).erase p
    · rw [Function.update_of_ne isBucket]
      exact hashed.nodup n inTable

end Hashed

/-! ## Growing and shrinking -/

namespace HashTable

theorem splitChain_spec (place : Nat → Nat) (n : Nat) (chain : List Nat)
    (buckets : Nat → List Nat) :
    (splitChain place n chain buckets).1 = chain.filter (fun p => place p = n) ∧
      ∀ m, (splitChain place n chain buckets).2 m =
        if m = n then buckets m else (chain.filter fun p => place p = m).reverse ++ buckets m := by
  induction chain generalizing buckets with
  | nil =>
      refine ⟨rfl, fun m => ?_⟩
      split
      · rfl
      · rfl
  | cons p rest induction =>
      unfold splitChain
      by_cases moves : place p ≠ n
      · rw [if_pos moves]
        obtain ⟨kept, moved⟩ := induction (Function.update buckets (place p) (p :: buckets (place p)))
        refine ⟨?_, fun m => ?_⟩
        · rw [kept, List.filter_cons_of_neg (by simpa using moves)]
        · rw [moved]
          by_cases isSource : m = n
          · have notTarget : m ≠ place p := fun same => moves (same.symm.trans isSource)
            rw [if_pos isSource, if_pos isSource, Function.update_of_ne notTarget]
          · rw [if_neg isSource, if_neg isSource]
            by_cases isTarget : place p = m
            · rw [← isTarget, Function.update_self, List.filter_cons_of_pos (by simp),
                List.reverse_cons, List.append_assoc, List.singleton_append]
            · rw [Function.update_of_ne (Ne.symm isTarget),
                List.filter_cons_of_neg (by simpa using isTarget)]
      · rw [if_neg moves]
        rw [not_not] at moves
        obtain ⟨kept, moved⟩ := induction buckets
        refine ⟨?_, fun m => ?_⟩
        · dsimp only
          rw [kept, List.filter_cons_of_pos (by simpa using moves)]
        · dsimp only
          rw [moved]
          by_cases isSource : m = n
          · rw [if_pos isSource, if_pos isSource]
          · rw [if_neg isSource, if_neg isSource,
              List.filter_cons_of_neg (by simpa [moves] using Ne.symm isSource)]

/-- After the first chains have been split each page of them is in the lower or in the upper
half. -/
theorem splitBuckets_spec {place : Nat → Nat} {old n : Nat} {buckets : Nat → List Nat}
    (inHalves : ∀ i < old, ∀ p ∈ buckets i, place p = i ∨ place p = i + old)
    (upperEmpty : ∀ m, old ≤ m → m < old + old → buckets m = []) (inTable : n ≤ old) (m : Nat) :
    splitBuckets place n buckets m =
      if m < n then (buckets m).filter fun p => place p = m
      else if old ≤ m ∧ m < old + n then
        ((buckets (m - old)).filter fun p => place p = m).reverse
      else buckets m := by
  induction n generalizing m with
  | zero =>
      rw [if_neg (Nat.not_lt_zero m), if_neg (by omega)]
      rfl
  | succ n induction =>
      have before := induction (by omega)
      have chain : splitBuckets place n buckets n = buckets n := by
        rw [before, if_neg (Nat.lt_irrefl n), if_neg (by omega)]
      obtain ⟨kept, moved⟩ := splitChain_spec place n (buckets n) (splitBuckets place n buckets)
      have isStep : splitBuckets place (n + 1) buckets =
          Function.update (splitChain place n (splitBuckets place n buckets n)
            (splitBuckets place n buckets)).2 n
            (splitChain place n (splitBuckets place n buckets n)
              (splitBuckets place n buckets)).1 := rfl
      rw [isStep, chain, kept]
      by_cases isChain : m = n
      · subst isChain
        rw [Function.update_self, if_pos (Nat.lt_succ_self m)]
      · rw [Function.update_of_ne isChain, moved, if_neg isChain, before]
        have noneElse : m ≠ n + old → (buckets n).filter (fun p => place p = m) = [] := by
          intro notUpper
          rw [List.filter_eq_nil_iff]
          intro p member isPlace
          have halves := inHalves n (by omega) p member
          rw [decide_eq_true_eq] at isPlace
          omega
        by_cases isUpper : m = n + old
        · subst isUpper
          have notLower : ¬ n + old < n := by omega
          have notLower' : ¬ n + old < n + 1 := by omega
          have notBefore : ¬ (old ≤ n + old ∧ n + old < old + n) := by omega
          have isNow : old ≤ n + old ∧ n + old < old + (n + 1) := by omega
          rw [if_neg notLower, if_neg notLower', if_neg notBefore, if_pos isNow,
            Nat.add_sub_cancel, upperEmpty (n + old) (by omega) (by omega), List.append_nil]
        · rw [noneElse isUpper, List.reverse_nil, List.nil_append]
          have lower : m < n ↔ m < n + 1 := by omega
          have upper : (old ≤ m ∧ m < old + n) ↔ (old ≤ m ∧ m < old + (n + 1)) := by omega
          simp only [lower, upper]

/-- A hash modulo the doubled length is in one of the halves. -/
theorem mod_double (h old : Nat) :
    h % (2 * old) = h % old ∨ h % (2 * old) = h % old + old := by
  rw [Nat.mul_comm 2 old, Nat.mod_mul]
  rcases Nat.mod_two_eq_zero_or_one (h / old) with isZero | isOne
  · rw [isZero, Nat.mul_zero]
    exact .inl rfl
  · rw [isOne, Nat.mul_one]
    exact .inr rfl

end HashTable

namespace Hashed

theorem grow (hashed : Hashed l magnitude t pages) (small : t.allocated < 2 ^ 31) :
    Hashed l magnitude (HashTable.htableGrow l magnitude t) pages := by
  obtain ⟨k, power⟩ := hashed.power
  have positive : 0 < t.allocated := power ▸ Nat.two_pow_pos k
  have doubled : 2 * t.allocated % 2 ^ 32 = 2 * t.allocated := Nat.mod_eq_of_lt (by omega)
  have newPower : 2 * t.allocated = 2 ^ (k + 1) := by rw [power, Nat.pow_succ, Nat.mul_comm]
  obtain ⟨buckets, isBuckets⟩ : ∃ buckets : Nat → List Nat, (fun n =>
      if t.allocated ≤ n ∧ n < t.allocated + t.allocated then [] else t.buckets n) = buckets :=
    ⟨_, rfl⟩
  have place : ∀ p, HashTable.bucketOf l magnitude ⟨2 * t.allocated, buckets⟩ p =
      hash1 magnitude (l.lastBlock p) % (2 * t.allocated) := fun p =>
    @HashTable.mask_eq ⟨2 * t.allocated, buckets⟩ (k + 1) newPower _
  have oldPlace : ∀ p, HashTable.bucketOf l magnitude t p =
      hash1 magnitude (l.lastBlock p) % t.allocated := fun p => HashTable.mask_eq power _
  have lower : ∀ m < t.allocated, buckets m = t.buckets m := by
    intro m inLower
    rw [← isBuckets]
    exact if_neg (by omega)
  have upper : ∀ m, t.allocated ≤ m → m < t.allocated + t.allocated → buckets m = [] := by
    intro m isUpper inTable
    rw [← isBuckets]
    exact if_pos ⟨isUpper, inTable⟩
  have inHalves : ∀ i < t.allocated, ∀ p ∈ buckets i,
      HashTable.bucketOf l magnitude ⟨2 * t.allocated, buckets⟩ p = i ∨
        HashTable.bucketOf l magnitude ⟨2 * t.allocated, buckets⟩ p = i + t.allocated := by
    intro i inLower p member
    rw [lower i inLower] at member
    have isBucket := (hashed.sound i inLower p member).2
    rw [oldPlace] at isBucket
    rw [place, ← isBucket]
    exact HashTable.mod_double _ _
  have isGrown : HashTable.htableGrow l magnitude t = ⟨2 * t.allocated, HashTable.splitBuckets
      (HashTable.bucketOf l magnitude ⟨2 * t.allocated, buckets⟩) t.allocated buckets⟩ := by
    unfold HashTable.htableGrow
    dsimp only
    rw [doubled, isBuckets]
  have newBuckets : ∀ m < 2 * t.allocated, (HashTable.htableGrow l magnitude t).buckets m =
      if m < t.allocated then (t.buckets m).filter fun p =>
        HashTable.bucketOf l magnitude ⟨2 * t.allocated, buckets⟩ p = m
      else ((t.buckets (m - t.allocated)).filter fun p =>
        HashTable.bucketOf l magnitude ⟨2 * t.allocated, buckets⟩ p = m).reverse := by
    intro m inTable
    rw [isGrown]
    dsimp only
    rw [HashTable.splitBuckets_spec inHalves upper (Nat.le_refl _)]
    by_cases isLower : m < t.allocated
    · rw [if_pos isLower, if_pos isLower, lower m isLower]
    · rw [if_neg isLower, if_neg isLower, if_pos (by omega), lower (m - t.allocated) (by omega)]
  have sameBucket : ∀ p, HashTable.bucketOf l magnitude (HashTable.htableGrow l magnitude t) p =
      HashTable.bucketOf l magnitude ⟨2 * t.allocated, buckets⟩ p := by
    intro p
    rw [isGrown]
    rfl
  have isAllocated : (HashTable.htableGrow l magnitude t).allocated = 2 * t.allocated := by
    rw [isGrown]
  refine ⟨⟨k + 1, isAllocated.trans newPower⟩, ?_, ?_, ?_⟩
  · intro m inTable p member
    rw [isAllocated] at inTable
    rw [newBuckets m inTable] at member
    rw [sameBucket]
    split at member
    · next isLower =>
        rw [List.mem_filter, decide_eq_true_eq] at member
        exact ⟨(hashed.sound m isLower p member.1).1, member.2⟩
    · next isUpper =>
        rw [List.mem_reverse, List.mem_filter, decide_eq_true_eq] at member
        exact ⟨(hashed.sound _ (by omega) p member.1).1, member.2⟩
  · intro p isPage
    have isMember := hashed.complete p isPage
    have inLower := hashed.bucket_lt p
    have inTable : HashTable.bucketOf l magnitude ⟨2 * t.allocated, buckets⟩ p <
        2 * t.allocated := by
      rw [place]
      exact Nat.mod_lt _ (by omega)
    have halves := inHalves _ inLower p (by rwa [lower _ inLower])
    rw [sameBucket, newBuckets _ inTable]
    rcases halves with isLower | isUpper
    · rw [if_pos (by omega), List.mem_filter, decide_eq_true_eq, isLower]
      exact ⟨isMember, rfl⟩
    · rw [if_neg (by omega), List.mem_reverse, List.mem_filter, decide_eq_true_eq, isUpper,
        Nat.add_sub_cancel]
      exact ⟨isMember, rfl⟩
  · intro m inTable
    rw [isAllocated] at inTable
    rw [newBuckets m inTable]
    split
    · next isLower => exact (hashed.nodup m isLower).filter _
    · next isUpper => exact List.nodup_reverse.mpr ((hashed.nodup _ (by omega)).filter _)

theorem shrink (hashed : Hashed l magnitude t pages) (large : 2 ≤ t.allocated) :
    Hashed l magnitude (HashTable.htableShrink t) pages := by
  obtain ⟨k, power⟩ := hashed.power
  obtain ⟨k, rfl⟩ : ∃ smaller, k = smaller + 1 := by
    cases k with
    | zero => rw [power] at large; exact absurd large (by decide)
    | succ k => exact ⟨k, rfl⟩
  obtain ⟨half, isHalf⟩ : ∃ half, 2 ^ k = half := ⟨_, rfl⟩
  have positive : 0 < half := isHalf ▸ Nat.two_pow_pos k
  have isDouble : t.allocated = 2 * half := by rw [power, Nat.pow_succ, isHalf, Nat.mul_comm]
  have isAllocated : (HashTable.htableShrink t).allocated = half := by
    show t.allocated / 2 = half
    omega
  have oldPlace : ∀ p, HashTable.bucketOf l magnitude t p =
      hash1 magnitude (l.lastBlock p) % (2 * half) := by
    intro p
    rw [← isDouble]
    exact HashTable.mask_eq power _
  have place : ∀ p, HashTable.bucketOf l magnitude (HashTable.htableShrink t) p =
      hash1 magnitude (l.lastBlock p) % half := by
    intro p
    rw [← isAllocated]
    exact HashTable.mask_eq (isAllocated.trans isHalf.symm) _
  have newBuckets : ∀ m < half, (HashTable.htableShrink t).buckets m =
      t.buckets (half + m) ++ t.buckets m := by
    intro m inTable
    have isHalfLength : t.allocated / 2 = half := by omega
    unfold HashTable.htableShrink
    dsimp only
    rw [isHalfLength, if_pos inTable]
  refine ⟨⟨k, isAllocated.trans isHalf.symm⟩, ?_, ?_, ?_⟩
  · intro m inTable p member
    rw [isAllocated] at inTable
    rw [newBuckets m inTable, List.mem_append] at member
    rw [place]
    have halves := HashTable.mod_double (hash1 magnitude (l.lastBlock p)) half
    rcases member with isUpper | isLower
    · obtain ⟨isPage, isBucket⟩ := hashed.sound _ (by omega) p isUpper
      rw [oldPlace] at isBucket
      have small := Nat.mod_lt (hash1 magnitude (l.lastBlock p)) positive
      exact ⟨isPage, by omega⟩
    · obtain ⟨isPage, isBucket⟩ := hashed.sound _ (by omega) p isLower
      rw [oldPlace] at isBucket
      exact ⟨isPage, by omega⟩
  · intro p isPage
    have isMember := hashed.complete p isPage
    have small := Nat.mod_lt (hash1 magnitude (l.lastBlock p)) positive
    rw [place, newBuckets _ small, List.mem_append]
    rw [oldPlace] at isMember
    rcases HashTable.mod_double (hash1 magnitude (l.lastBlock p)) half with
      isLower | isUpper
    · exact .inr (isLower ▸ isMember)
    · rw [isUpper, Nat.add_comm] at isMember
      exact .inl isMember
  · intro m inTable
    rw [isAllocated] at inTable
    rw [newBuckets m inTable, List.nodup_append]
    refine ⟨hashed.nodup _ (by omega), hashed.nodup _ (by omega), ?_⟩
    intro p isUpper q isLower same
    have upper := (hashed.sound _ (by omega) p isUpper).2
    have lower := (hashed.sound _ (by omega) q isLower).2
    rw [same] at upper
    omega

/-! ## Looking up -/

/-- No address is in two pages. -/
theorem checkPtr_unique {p q : Nat} (positive : 0 < l.blockSize)
    (apart : p + l.pageSize ≤ q ∨ q + l.pageSize ≤ p)
    (inFirst : l.checkPtr p ptr) (inSecond : l.checkPtr q ptr) : False := by
  unfold Layout.checkPtr at inFirst inSecond
  unfold Layout.pageSize at apart
  omega

/-- The last block is in the same granule as an address of the page or in the next one. -/
theorem bucketOf_checkPtr (power : ∃ k, t.allocated = 2 ^ k) (positive : 0 < l.blockSize)
    (fits : l.pageSize ≤ 2 ^ magnitude) (inSpace : l.lastBlock p < 2 ^ 64)
    (inPage : l.checkPtr p ptr) :
    HashTable.bucketOf l magnitude t p = t.mask (hash1 magnitude ptr) ∨
      HashTable.bucketOf l magnitude t p = t.mask (hash2 magnitude ptr) := by
  have granule : l.lastBlock p >>> magnitude = ptr >>> magnitude ∨
      l.lastBlock p >>> magnitude = ptr >>> magnitude + 1 := by
    rw [Nat.shiftRight_eq_div_pow, Nat.shiftRight_eq_div_pow]
    have granulePositive := Nat.two_pow_pos magnitude
    have isLast : l.lastBlock p = p + l.offset := rfl
    unfold Layout.checkPtr at inPage
    unfold Layout.pageSize at fits
    have atLeast : ptr / 2 ^ magnitude ≤ l.lastBlock p / 2 ^ magnitude :=
      Nat.div_le_div_right (by omega)
    have atMost : l.lastBlock p / 2 ^ magnitude ≤ (ptr + 2 ^ magnitude) / 2 ^ magnitude :=
      Nat.div_le_div_right (by omega)
    rw [Nat.add_div_right _ granulePositive] at atMost
    omega
  unfold HashTable.bucketOf hash1 hash2
  rcases granule with same | next
  · exact .inl (by rw [same])
  · have small : l.lastBlock p >>> magnitude < 2 ^ 64 := by
      rw [Nat.shiftRight_eq_div_pow]
      exact Nat.lt_of_le_of_lt (Nat.div_le_self _ _) inSpace
    rw [← next, Nat.mod_eq_of_lt small]
    exact .inr rfl

theorem lookup_iff (hashed : Hashed l magnitude t pages) (positive : 0 < l.blockSize)
    (fits : l.pageSize ≤ 2 ^ magnitude) (inSpace : ∀ p ∈ pages, l.lastBlock p < 2 ^ 64)
    (apart : ∀ p ∈ pages, ∀ q ∈ pages, p ≠ q → p + l.pageSize ≤ q ∨ q + l.pageSize ≤ p) :
    HashTable.htableLookup l magnitude t ptr = some p ↔ p ∈ pages ∧ l.checkPtr p ptr := by
  obtain ⟨k, power⟩ := hashed.power
  have inTable : ∀ h, t.mask h < t.allocated := by
    intro h
    rw [HashTable.mask_eq power]
    exact Nat.mod_lt _ (power ▸ Nat.two_pow_pos k)
  have found : ∀ h q, (t.buckets (t.mask h)).find? (fun p => l.checkPtr p ptr) = some q →
      q ∈ pages ∧ l.checkPtr q ptr := by
    intro h q isFound
    have isMember := List.mem_of_find?_eq_some isFound
    have inPage := List.find?_some isFound
    rw [decide_eq_true_eq] at inPage
    exact ⟨(hashed.sound _ (inTable h) q isMember).1, inPage⟩
  have isFound : ∀ h, p ∈ pages → l.checkPtr p ptr →
      HashTable.bucketOf l magnitude t p = t.mask h →
      (t.buckets (t.mask h)).find? (fun p => l.checkPtr p ptr) = some p := by
    intro h isPage inPage isBucket
    have isMember := hashed.complete p isPage
    rw [isBucket] at isMember
    obtain ⟨q, isQ⟩ := Option.isSome_iff_exists.mp
      (List.find?_isSome.mpr
        (show ∃ q ∈ t.buckets (t.mask h), decide (l.checkPtr q ptr) = true from
          ⟨p, isMember, decide_eq_true inPage⟩))
    obtain ⟨qPage, inQ⟩ := found h q isQ
    by_cases same : p = q
    · rw [isQ, same]
    · exact (checkPtr_unique positive (apart p isPage q qPage same) inPage inQ).elim
  have sound : ∀ q, HashTable.htableLookup l magnitude t ptr = some q →
      q ∈ pages ∧ l.checkPtr q ptr := by
    intro q result
    unfold HashTable.htableLookup at result
    dsimp only at result
    split at result
    · next r isFirst =>
        cases result
        split at isFirst
        · cases isFirst
        · exact found _ _ isFirst
    · exact found _ _ result
  constructor
  · exact sound p
  · rintro ⟨isPage, inPage⟩
    have notNone : HashTable.htableLookup l magnitude t ptr ≠ none := by
      intro isNone
      unfold HashTable.htableLookup at isNone
      dsimp only at isNone
      split at isNone
      · cases isNone
      · next notFirst =>
          rcases bucketOf_checkPtr ⟨k, power⟩ positive fits (inSpace p isPage) inPage with
            isFirst | isSecond
          · by_cases sameHash : hash1 magnitude ptr = hash2 magnitude ptr
            · rw [sameHash] at isFirst
              rw [isFound _ isPage inPage isFirst] at isNone
              cases isNone
            · rw [if_neg sameHash, isFound _ isPage inPage isFirst] at notFirst
              cases notFirst
          · rw [isFound _ isPage inPage isSecond] at isNone
            cases isNone
    obtain ⟨q, isQ⟩ := Option.ne_none_iff_exists'.mp notNone
    obtain ⟨qPage, inQ⟩ := sound q isQ
    by_cases same : p = q
    · rw [isQ, same]
    · exact (checkPtr_unique positive (apart p isPage q qPage same) inPage inQ).elim

end Hashed

namespace HashTable

/-! ## Runs -/

structure State where
  table : HashTable
  pages : Finset Nat

inductive Event
  | insert (p : Nat)
  | delete (p : Nat)
  | grow
  | shrink

/-- Pages are inserted that do not overlap the others, and the table keeps a length that is
neither zero nor too large. -/
def Enabled (l : Layout) (state : State) : Event → Prop
  | .insert p => p ∉ state.pages ∧ l.lastBlock p < 2 ^ 64 ∧
      ∀ q ∈ state.pages, p + l.pageSize ≤ q ∨ q + l.pageSize ≤ p
  | .delete p => p ∈ state.pages
  | .grow => state.table.allocated < 2 ^ 31
  | .shrink => 2 ≤ state.table.allocated

def step (l : Layout) (magnitude : Nat) (state : State) : Event → Option State
  | .insert p => some ⟨htableInsert l magnitude state.table p, Insert.insert p state.pages⟩
  | .delete p => some ⟨htableDelete l magnitude state.table p, state.pages.erase p⟩
  | .grow => some { state with table := htableGrow l magnitude state.table }
  | .shrink => some { state with table := htableShrink state.table }

/-- `BA_ALLOC_INITIAL`. -/
def allocInitial : Nat := 8

/-- The table that `ba_init` makes. -/
def empty : HashTable := ⟨allocInitial, fun _ => []⟩

def machine (l : Layout) (magnitude : Nat) : Machine State Event :=
  ⟨fun state => state = ⟨empty, ∅⟩, Enabled l, step l magnitude⟩

end HashTable

theorem hashed_empty : Hashed l magnitude HashTable.empty ∅ := by
  refine ⟨⟨3, rfl⟩, ?_, ?_, fun _ _ => List.nodup_nil⟩
  · intro n _ p member
    cases member
  · intro p impossible
    exact absurd impossible (Finset.notMem_empty p)

/-- The table is in step with pages that do not overlap. -/
structure HashTable.Inv (l : Layout) (magnitude : Nat) (state : HashTable.State) : Prop where
  hashed : Hashed l magnitude state.table state.pages
  inSpace : ∀ p ∈ state.pages, l.lastBlock p < 2 ^ 64
  apart : ∀ p ∈ state.pages, ∀ q ∈ state.pages, p ≠ q →
    p + l.pageSize ≤ q ∨ q + l.pageSize ≤ p

theorem HashTable.inv_step {state next : HashTable.State} {event : HashTable.Event}
    (inv : HashTable.Inv l magnitude state) (enabled : HashTable.Enabled l state event)
    (result : HashTable.step l magnitude state event = some next) :
    HashTable.Inv l magnitude next := by
  cases event with
  | insert p =>
      cases result
      obtain ⟨fresh, inSpace, apart⟩ := enabled
      refine ⟨inv.hashed.insert fresh, ?_, ?_⟩
      · intro q isPage
        rcases Finset.mem_insert.mp isPage with isNew | isOld
        · exact isNew ▸ inSpace
        · exact inv.inSpace q isOld
      · intro q isPage r isOther different
        rcases Finset.mem_insert.mp isPage with isNew | isOld
        · rcases Finset.mem_insert.mp isOther with isAlsoNew | isOtherOld
          · exact absurd (isNew.trans isAlsoNew.symm) different
          · exact isNew ▸ apart r isOtherOld
        · rcases Finset.mem_insert.mp isOther with isNew | isOtherOld
          · exact isNew ▸ (apart q isOld).symm
          · exact inv.apart q isOld r isOtherOld different
  | delete p =>
      cases result
      exact ⟨inv.hashed.delete, fun q isPage => inv.inSpace q (Finset.mem_of_mem_erase isPage),
        fun q isPage r isOther => inv.apart q (Finset.mem_of_mem_erase isPage) r
          (Finset.mem_of_mem_erase isOther)⟩
  | grow =>
      cases result
      exact ⟨inv.hashed.grow enabled, inv.inSpace, inv.apart⟩
  | shrink =>
      cases result
      exact ⟨inv.hashed.shrink enabled, inv.inSpace, inv.apart⟩

theorem HashTable.inv_reachable {state : HashTable.State}
    (reachable : (HashTable.machine l magnitude).Reachable (fun _ _ => True) state) :
    HashTable.Inv l magnitude state := by
  refine @Machine.Reachable.invariant _ _ (HashTable.machine l magnitude) _
    (HashTable.Inv l magnitude) ?_ ?_ _ reachable
  · rintro state rfl
    exact ⟨hashed_empty, fun p impossible => absurd impossible (Finset.notMem_empty p),
      fun p impossible => absurd impossible (Finset.notMem_empty p)⟩
  · intro state event next inv enabled _ result
    exact HashTable.inv_step inv enabled result

theorem Hashed.linearLookup_iff (hashed : Hashed l magnitude t pages) (positive : 0 < l.blockSize)
    (apart : ∀ p ∈ pages, ∀ q ∈ pages, p ≠ q → p + l.pageSize ≤ q ∨ q + l.pageSize ≤ p) :
    HashTable.htableLinearLookup l t ptr = some p ↔ p ∈ pages ∧ l.checkPtr p ptr := by
  have sound : ∀ q, HashTable.htableLinearLookup l t ptr = some q →
      q ∈ pages ∧ l.checkPtr q ptr := by
    intro q result
    unfold HashTable.htableLinearLookup at result
    have inPage := List.find?_some result
    rw [decide_eq_true_eq] at inPage
    exact ⟨hashed.mem_pageLoop.mp (List.mem_of_find?_eq_some result), inPage⟩
  constructor
  · exact sound p
  · rintro ⟨isPage, inPage⟩
    obtain ⟨q, isQ⟩ := Option.isSome_iff_exists.mp
      (List.find?_isSome.mpr
        (show ∃ q ∈ t.pageLoop, decide (l.checkPtr q ptr) = true from
          ⟨p, hashed.mem_pageLoop.mpr isPage, decide_eq_true inPage⟩))
    have isLinear : HashTable.htableLinearLookup l t ptr = some q := isQ
    obtain ⟨qPage, inQ⟩ := sound q isLinear
    by_cases same : p = q
    · rw [isLinear, same]
    · exact (checkPtr_unique positive (apart p isPage q qPage same) inPage inQ).elim

/-- The lookup finds the page around an address and nothing else, as going through all pages
does. -/
theorem htableLookup_exact {state : HashTable.State} (positive : 0 < l.blockSize)
    (fits : l.pageSize ≤ 2 ^ magnitude)
    (reachable : (HashTable.machine l magnitude).Reachable (fun _ _ => True) state) (ptr : Nat) :
    (∀ p, HashTable.htableLookup l magnitude state.table ptr = some p ↔
      p ∈ state.pages ∧ l.checkPtr p ptr) ∧
    HashTable.htableLookup l magnitude state.table ptr =
      HashTable.htableLinearLookup l state.table ptr := by
  have inv := HashTable.inv_reachable reachable
  have lookup := fun p => @Hashed.lookup_iff l magnitude p ptr state.table state.pages inv.hashed
    positive fits inv.inSpace inv.apart
  refine ⟨lookup, Option.ext fun p => ?_⟩
  exact (lookup p).trans (inv.hashed.linearLookup_iff positive inv.apart).symm

/-- A page of 104 bytes that is in two granules of 128 bytes. -/
theorem htableLookup_exact_one :
    HashTable.htableLookup ⟨96, 8, 8⟩ 7 (HashTable.htableInsert ⟨96, 8, 8⟩ 7 HashTable.empty 1000)
      1040 = some 1000 :=
  ((@htableLookup_exact ⟨96, 8, 8⟩ 7
    ⟨HashTable.htableInsert ⟨96, 8, 8⟩ 7 HashTable.empty 1000, {1000}⟩ (by decide) (by decide)
    (@Machine.Reachable.step _ _ (HashTable.machine ⟨96, 8, 8⟩ 7) _ ⟨HashTable.empty, ∅⟩ _
      (.insert 1000) (.init rfl) ⟨by decide, by decide, by decide⟩ trivial rfl) 1040).1 1000).mpr
    (by decide)

end MallocSurvey.Gjalloc
