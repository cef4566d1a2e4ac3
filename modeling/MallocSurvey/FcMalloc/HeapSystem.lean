import Mathlib.Data.List.Nodup
import MallocSurvey.FcMalloc.HeapPools
import MallocSurvey.FcMalloc.HeapServing
import MallocSurvey.Library.Transition

/-! # The runs of the heap -/

namespace MallocSurvey.FcMalloc.FcHeap

open Library

structure State where
  heap : Heap
  /-- the pointers in use, each with the size asked for -/
  live : List (Nat × Nat)

namespace State

variable {heap heap' : Heap} {owner owner' : Nat → Option Nat} {lists lists' : Nat → List Nat}
  {state next : State} {page block b p q k s answer granted : Nat}

inductive Event where
  /-- `fc_malloc`, with the answer of the system if it is asked for a page -/
  | malloc (s answer : Nat)
  | free (f : Nat)
  /-- The application writes where no header is. -/
  | writeHeader (address : Nat) (header : BlockHeader)
  /-- The application writes where no node is. -/
  | writeNode (address : Nat) (node : QueueState)

/-- The two pools. -/
inductive Kind where
  | of32
  | of64
deriving DecidableEq

def Kind.width : Kind → Nat
  | .of32 => 32
  | .of64 => 64

def Kind.slots (kind : Kind) : Nat := Pool.slots kind.width

def poolOf (heap : Heap) : Kind → Pool
  | .of32 => heap.pool32
  | .of64 => heap.pool64

def setPool (heap : Heap) (kind : Kind) (pool : Pool) : Heap :=
  match kind with
  | .of32 => { heap with pool32 := pool }
  | .of64 => { heap with pool64 := pool }

def slotAt (heap : Heap) (kind : Kind) (k : Nat) : Nat := (poolOf heap kind).slot kind.width k

def IsSlot (heap : Heap) (kind : Kind) (p : Nat) : Prop :=
  ∃ k < kind.slots, p = slotAt heap kind k

/-- The pointer is into the region of a pool. -/
def InPool (heap : Heap) (kind : Kind) (p : Nat) : Prop :=
  (poolOf heap kind).data ≤ p ∧ p < (poolOf heap kind).data + pageSizeMax

instance (heap : Heap) (kind : Kind) (p : Nat) : Decidable (InPool heap kind p) :=
  inferInstanceAs (Decidable (_ ∧ _))

/-- The pointers in use. -/
def ptrs (state : State) : List Nat := state.live.map Prod.fst

/-- What the system has given. -/
def regions (heap : Heap) : List Nat :=
  (poolOf heap .of32).data :: (poolOf heap .of64).data :: heap.pages

/-- What the system can answer with. -/
structure PageGiven (heap : Heap) (answer : Nat) : Prop where
  nonzero : answer ≠ 0
  fits : answer + pageSizeMax ≤ 2 ^ 64
  apart : ∀ region ∈ regions heap, Apart answer pageSizeMax region pageSizeMax

def step (state : State) : Event → Option State
  | .malloc s answer => do
      let (p, heap) ← state.heap.fcMalloc answer s
      return ⟨heap, if p = 0 then state.live else (p, s) :: state.live⟩
  | .free f => do
      let heap ← state.heap.fcFree f
      return ⟨heap, state.live.eraseP fun used => used.1 = f⟩
  | .writeHeader address header =>
      some { state with heap := state.heap.setHeader address header }
  | .writeNode address node => some { state with heap := state.heap.setNode address node }

def Enabled (state : State) : Event → Prop
  | .malloc s answer => s < 2 ^ 64 ∧ (answer = 0 ∨ PageGiven state.heap answer)
  | .free f => f ∈ state.ptrs
  | .writeHeader address _ => ∀ page ∈ state.heap.pages, address ∉ state.heap.blocks page
  | .writeNode address _ => ∀ page ∈ state.heap.pages, address ∈ state.heap.blocks page →
      state.heap.isQueued address = false

/-- The system has given the regions of the pools, and nothing else. -/
structure Started (state : State) : Prop where
  bins : ∀ bin, state.heap.bins bin = 0
  pages : state.heap.pages = []
  isFree : ∀ kind word, (poolOf state.heap kind).state word = BitVec.allOnes 64
  scanPos : ∀ kind, (poolOf state.heap kind).scanPos = 0
  nonzero : ∀ kind, (poolOf state.heap kind).data ≠ 0
  apart : (regions state.heap).Pairwise fun left right =>
    Apart left pageSizeMax right pageSizeMax
  live : state.live = []

def machine : Machine State Event where
  Init := Started
  Enabled := Enabled
  step := step

/-! ## The pools -/

section Pools

variable {kind other : Kind} {pool : Pool}

theorem width_pos (kind : Kind) : 0 < kind.width := by
  cases kind <;> decide

theorem slots_eq (kind : Kind) : kind.slots * kind.width = pageSizeMax := by
  cases kind <;> decide

theorem poolOf_setPool_self : poolOf (setPool heap kind pool) kind = pool := by
  cases kind <;> rfl

theorem poolOf_setPool_of_ne (different : other ≠ kind) :
    poolOf (setPool heap kind pool) other = poolOf heap other := by
  cases kind <;> cases other <;> first | rfl | exact absurd rfl different

theorem data_setPool (other : Kind) (sameData : pool.data = (poolOf heap kind).data) :
    (poolOf (setPool heap kind pool) other).data = (poolOf heap other).data := by
  by_cases same : other = kind
  · rw [same, poolOf_setPool_self, sameData]
  · rw [poolOf_setPool_of_ne same]

theorem slotAt_setPool (sameData : pool.data = (poolOf heap kind).data) :
    slotAt (setPool heap kind pool) other k = slotAt heap other k :=
  Pool.slot_congr (data_setPool other sameData)

theorem slotAt_inside (heap : Heap) (inside : k < kind.slots) :
    (poolOf heap kind).data ≤ slotAt heap kind k ∧
      slotAt heap kind k + kind.width ≤ (poolOf heap kind).data + pageSizeMax := by
  rw [← slots_eq kind]
  exact (poolOf heap kind).slot_inside inside

end Pools

/-! ## The invariant -/

/-- A pointer to a block in use. -/
def IsBlock (heap : Heap) (owner : Nat → Option Nat) (p : Nat) : Prop :=
  ∃ b page, p = b + sizeofHeader ∧ owner b = some page ∧ (heap.header b).flags = active

/-- The pages and the pools are in different places. -/
structure Placed (heap : Heap) (owner : Nat → Option Nat) (lists : Nat → List Nat) : Prop where
  kept : Kept heap owner lists []
  regionsApart : (regions heap).Pairwise fun left right =>
    Apart left pageSizeMax right pageSizeMax

structure Sorted (heap : Heap) (ptrs : List Nat) (owner : Nat → Option Nat)
    (lists : Nat → List Nat) : Prop extends Placed heap owner lists where
  nodup : ptrs.Nodup
  slots : ∀ kind : Kind, (poolOf heap kind).Consistent kind.width ptrs
  isPlace : ∀ p ∈ ptrs, (∃ kind, IsSlot heap kind p) ∨ IsBlock heap owner p
  isListed : ∀ {b page}, owner b = some page → (heap.header b).flags = active →
    b + sizeofHeader ∈ ptrs

def Inv (state : State) : Prop := ∃ owner lists, Sorted state.heap state.ptrs owner lists

/-- The bytes that a pointer can be used for. -/
def usable (heap : Heap) (p : Nat) : Nat :=
  if InPool heap .of32 p then Kind.width .of32
  else if InPool heap .of64 p then Kind.width .of64
  else heap.size (p - sizeofHeader) - sizeofHeader

section Places

variable {kind other : Kind} (placed : Placed heap owner lists)

include placed

theorem pools_apart (different : kind ≠ other) :
    Apart (poolOf heap kind).data pageSizeMax (poolOf heap other).data pageSizeMax := by
  have apart := (List.pairwise_cons.mp placed.regionsApart).1 _ List.mem_cons_self
  cases kind <;> cases other <;>
    first | exact absurd rfl different | exact apart | exact Or.symm apart

theorem page_apart (kind : Kind) (isPage : page ∈ heap.pages) :
    Apart (poolOf heap kind).data pageSizeMax page pageSizeMax := by
  obtain ⟨first, rest⟩ := List.pairwise_cons.mp placed.regionsApart
  cases kind with
  | of32 => exact first _ (List.mem_cons_of_mem _ isPage)
  | of64 => exact (List.pairwise_cons.mp rest).1 _ isPage

/-- Where a block can be. -/
theorem block_outside (kind : Kind) (isOwner : owner b = some page) :
    ¬ InPool heap kind (b + sizeofHeader) := by
  have apart := page_apart placed kind (placed.kept.chained.isPage isOwner)
  have ok := placed.kept.chained.block isOwner
  have low := ok.low
  have high := ok.high
  have large := ok.large
  unfold Apart at apart
  unfold InPool sizeofHeader
  omega

theorem inPool_slot (inside : k < kind.slots) :
    InPool heap other (slotAt heap kind k) ↔ kind = other := by
  have bounds := slotAt_inside heap inside
  have positive := width_pos kind
  unfold InPool
  by_cases same : kind = other
  · subst same
    exact iff_of_true (by omega) rfl
  · have apart := pools_apart placed same
    unfold Apart at apart
    exact iff_of_false (by omega) same

theorem usable_slot (inside : k < kind.slots) : usable heap (slotAt heap kind k) = kind.width := by
  unfold usable
  simp only [inPool_slot placed inside]
  cases kind <;> rfl

theorem usable_block (isOwner : owner b = some page) :
    usable heap (b + sizeofHeader) = heap.size b - sizeofHeader := by
  unfold usable
  rw [if_neg (block_outside placed .of32 isOwner), if_neg (block_outside placed .of64 isOwner),
    Nat.add_sub_cancel]

theorem block_ne_slot (isOwner : owner b = some page) (inside : k < kind.slots) :
    slotAt heap kind k ≠ b + sizeofHeader := fun same =>
  block_outside placed kind isOwner (same ▸ (inPool_slot placed inside).mpr rfl)

theorem slot_ne_slot (different : kind ≠ other) (inside : k < kind.slots) {j : Nat}
    (jInside : j < other.slots) : slotAt heap kind k ≠ slotAt heap other j := fun same =>
  different ((inPool_slot placed inside).mp (same ▸ (inPool_slot placed jInside).mpr rfl))

end Places

theorem usable_congr (sameData : ∀ kind, (poolOf heap' kind).data = (poolOf heap kind).data)
    (sameSize : heap'.size (p - sizeofHeader) = heap.size (p - sizeofHeader)) :
    usable heap' p = usable heap p := by
  have sameIn : ∀ kind, InPool heap' kind p ↔ InPool heap kind p := by
    intro kind
    unfold InPool
    rw [sameData]
  unfold usable
  simp only [sameIn, sameSize]

theorem poolOf_congr (same32 : heap'.pool32 = heap.pool32) (same64 : heap'.pool64 = heap.pool64) :
    poolOf heap' = poolOf heap := by
  funext kind
  cases kind with
  | of32 => exact same32
  | of64 => exact same64

theorem Placed.paged (placed : Placed heap owner lists) (kept : Kept heap' owner' lists' [])
    (samePool : poolOf heap' = poolOf heap)
    (pages : ∀ kind, ∀ page ∈ heap'.pages,
      Apart (poolOf heap kind).data pageSizeMax page pageSizeMax) : Placed heap' owner' lists' := by
  refine ⟨kept, ?_⟩
  unfold regions
  rw [samePool]
  refine List.pairwise_cons.mpr ⟨?_, List.pairwise_cons.mpr
    ⟨pages .of64, kept.chained.pagesApart⟩⟩
  intro region isRegion
  rcases List.mem_cons.mp isRegion with isSecond | isPage
  · rw [isSecond]
    exact pools_apart placed nofun
  · exact pages .of32 region isPage

section Slots

variable {ptrs ptrs' : List Nat} {kind : Kind} {pool : Pool}

/-- Slots of one pool are taken and given. -/
theorem Sorted.pooled (sorted : Sorted heap ptrs owner lists)
    (consistent : pool.Consistent kind.width ptrs')
    (sameData : pool.data = (poolOf heap kind).data) (nodup : ptrs'.Nodup)
    (others : ∀ q, (∀ k < kind.slots, slotAt heap kind k ≠ q) → (q ∈ ptrs' ↔ q ∈ ptrs)) :
    Sorted (setPool heap kind pool) ptrs' owner lists ∧
      ∀ q, usable (setPool heap kind pool) q = usable heap q := by
  have sameHeader : (setPool heap kind pool).header = heap.header := by
    cases kind <;> rfl
  have kept : Kept (setPool heap kind pool) owner lists [] := by
    cases kind <;> exact sorted.kept.rewritten (fun _ => rfl) (fun _ _ => rfl) rfl rfl
  refine ⟨⟨⟨kept, ?_⟩, nodup, ?_, ?_, ?_⟩, fun q => usable_congr
    (fun other => data_setPool other sameData) (size_congr (by rw [sameHeader]))⟩
  · have samePages : (setPool heap kind pool).pages = heap.pages := by
      cases kind <;> rfl
    unfold regions
    rw [data_setPool .of32 sameData, data_setPool .of64 sameData, samePages]
    exact sorted.regionsApart
  · intro other
    by_cases same : other = kind
    · rw [same, poolOf_setPool_self]
      exact consistent
    · rw [poolOf_setPool_of_ne same]
      exact (sorted.slots other).congr fun j inside => others _ fun k kInside =>
        slot_ne_slot sorted.toPlaced (Ne.symm same) kInside inside
  · intro q member
    unfold IsSlot IsBlock
    simp only [slotAt_setPool sameData, sameHeader]
    by_cases isSlot : IsSlot heap kind q
    · exact .inl ⟨kind, isSlot⟩
    · exact sorted.isPlace q ((others q fun k inside same =>
        isSlot ⟨k, inside, same.symm⟩).mp member)
  · intro b page isOwner isUsed
    rw [sameHeader] at isUsed
    exact (others _ fun k inside => block_ne_slot sorted.toPlaced isOwner inside).mpr
      (sorted.isListed isOwner isUsed)

theorem Sorted.missed (sorted : Sorted heap ptrs owner lists) (kind : Kind)
    (isNone : (poolOf heap kind).alloc kind.width = (none, pool)) :
    Sorted (setPool heap kind pool) ptrs owner lists ∧
      ∀ q, usable (setPool heap kind pool) q = usable heap q := by
  obtain ⟨consistent, sameData, _⟩ := (sorted.slots kind).missed isNone
  exact sorted.pooled consistent sameData sorted.nodup fun _ _ => Iff.rfl

theorem Sorted.took (sorted : Sorted heap ptrs owner lists)
    (isSome : (poolOf heap kind).alloc kind.width = (some p, pool)) :
    p ≠ 0 ∧ Sorted (setPool heap kind pool) (p :: ptrs) owner lists ∧
      (∀ q, usable (setPool heap kind pool) q = usable heap q) ∧
      IsSlot (setPool heap kind pool) kind p := by
  obtain ⟨consistent, sameData, isNew, k, inside, isSlot⟩ :=
    (sorted.slots kind).took (width_pos kind) isSome
  obtain ⟨sorted', same⟩ := sorted.pooled consistent sameData
    (List.nodup_cons.mpr ⟨isNew, sorted.nodup⟩) fun q notSlot => by
      rw [List.mem_cons, isSlot]
      exact or_iff_right (Ne.symm (notSlot k inside))
  exact ⟨(sorted.slots kind).alloc_nonzero (width_pos kind) isSome, sorted', same, k, inside,
    isSlot.trans (slotAt_setPool sameData).symm⟩

theorem Sorted.gave (sorted : Sorted heap ptrs owner lists) (member : p ∈ ptrs)
    (isSlot : IsSlot heap kind p) :
    ∃ pool, (poolOf heap kind).free kind.width p = some pool ∧
      Sorted (setPool heap kind pool) (ptrs.erase p) owner lists ∧
      ∀ q, usable (setPool heap kind pool) q = usable heap q := by
  obtain ⟨k, inside, rfl⟩ := isSlot
  obtain ⟨pool, isFreed, sameData, consistent⟩ := (sorted.slots kind).gave (width_pos kind)
    (slots_eq kind).le sorted.nodup inside member
  refine ⟨pool, isFreed, sorted.pooled consistent sameData (sorted.nodup.erase _) ?_⟩
  intro q notSlot
  rw [sorted.nodup.mem_erase_iff]
  exact and_iff_right (Ne.symm (notSlot k inside))

end Slots

/-! ## Calls -/

/-- The bytes lie in one slot or in one page. -/
def Holds (heap : Heap) (p s : Nat) : Prop :=
  (∃ kind, IsSlot heap kind p ∧ s ≤ kind.width) ∨
    ∃ page ∈ heap.pages, ∃ b ∈ heap.blocks page, p = b + sizeofHeader ∧
      s + sizeofHeader ≤ heap.size b ∧ b + heap.size b ≤ page + pageSizeMax

/-- What a call that returns does. -/
structure Malloced (state : State) (s granted p : Nat) (heap' : Heap) : Prop where
  inv : Inv ⟨heap', if p = 0 then state.live else (p, s) :: state.live⟩
  same : ∀ q ∈ state.ptrs, usable heap' q = usable state.heap q
  holds : p = 0 ∨ Holds heap' p granted
  large : p ≠ 0 → granted ≤ usable heap' p

variable {live : List (Nat × Nat)}

/-- A slot is handed out. -/
theorem Sorted.malloced {pool : Pool} (kind : Kind)
    (sorted : Sorted heap (live.map Prod.fst) owner lists) (small : s ≤ kind.width)
    (isSome : (poolOf heap kind).alloc kind.width = (some p, pool)) :
    Malloced ⟨heap, live⟩ s s p (setPool heap kind pool) := by
  obtain ⟨nonzero, took, same, isSlot⟩ := sorted.took isSome
  refine ⟨⟨owner, lists, ?_⟩, fun q _ => same q, .inr (.inl ⟨kind, isSlot, small⟩), fun _ => ?_⟩
  · rw [if_neg nonzero]
    exact took
  · obtain ⟨k, inside, rfl⟩ := isSlot
    rw [usable_slot took.toPlaced inside]
    exact small

theorem alloc64_spec (sorted : Sorted heap (live.map Prod.fst) owner lists) (small : s ≤ 64) :
    Malloced ⟨heap, live⟩ s s heap.alloc64.1 heap.alloc64.2 := by
  unfold Heap.alloc64
  rcases isAlloc : heap.pool64.alloc 64 with ⟨_ | p, pool⟩
  · obtain ⟨missed, same⟩ := sorted.missed .of64 isAlloc
    exact ⟨⟨owner, lists, missed⟩, fun q _ => same q, .inl rfl, fun nonzero => absurd rfl nonzero⟩
  · exact sorted.malloced .of64 small isAlloc

theorem alloc32_spec (sorted : Sorted heap (live.map Prod.fst) owner lists) (small : s ≤ 32) :
    Malloced ⟨heap, live⟩ s s heap.alloc32.1 heap.alloc32.2 := by
  unfold Heap.alloc32
  rcases isAlloc : heap.pool32.alloc 32 with ⟨_ | p, pool⟩
  · obtain ⟨missed, same⟩ := sorted.missed .of32 isAlloc
    have malloced := alloc64_spec missed (show s ≤ 64 by omega)
    exact ⟨malloced.inv, fun q member => (malloced.same q member).trans (same q), malloced.holds,
      malloced.large⟩
  · exact sorted.malloced .of32 small isAlloc

/-- The other blocks in use keep their sizes. -/
theorem usable_same (placed : Placed heap owner lists) (placed' : Placed heap' owner' lists')
    (samePool : poolOf heap' = poolOf heap)
    (isPlace : (∃ kind, IsSlot heap kind q) ∨ ∃ b page, q = b + sizeofHeader ∧
      owner b = some page ∧ owner' b = some page ∧ heap'.size b = heap.size b) :
    usable heap' q = usable heap q := by
  rcases isPlace with ⟨kind, k, inside, rfl⟩ | ⟨b, page, rfl, isOld, isNew, same⟩
  · have isUsable := usable_slot placed' inside
    unfold slotAt at isUsable ⊢
    rw [samePool] at isUsable
    rw [isUsable]
    exact (usable_slot placed inside).symm
  · rw [usable_block placed' isNew, usable_block placed isOld, same]

theorem served_spec {h r : Nat} (sorted : Sorted heap (live.map Prod.fst) owner lists)
    (isAnswer : answer = 0 ∨ PageGiven heap answer)
    (served : Served heap owner answer r h heap' owner' lists') :
    Malloced ⟨heap, live⟩ s (r - sizeofHeader) (h + sizeofHeader) heap' := by
  have chained := served.kept.chained
  have nonzero : h + sizeofHeader ≠ 0 := Nat.succ_ne_zero _
  obtain ⟨page, isOwner⟩ := served.isBlock
  have samePool := poolOf_congr served.pool32 served.pool64
  have placed : Placed heap' owner' lists' := by
    refine sorted.toPlaced.paged served.kept samePool fun kind region isPage => ?_
    rcases served.pages region isPage with isNew | isOld
    · rcases isAnswer with isZero | given
      · exact absurd (isZero ▸ isNew ▸ isPage) chained.nonzero
      · rw [isNew]
        refine Or.symm (given.apart _ ?_)
        cases kind <;> simp [regions]
    · exact page_apart sorted.toPlaced kind isOld
  have notSlot : ∀ kind, ∀ k < Kind.slots kind, slotAt heap kind k ≠ h + sizeofHeader := by
    intro kind k inside
    unfold slotAt
    rw [← samePool]
    exact block_ne_slot placed isOwner inside
  have isNew : h + sizeofHeader ∉ live.map Prod.fst := by
    intro member
    rcases sorted.isPlace _ member with ⟨kind, k, inside, isSlot⟩ | ⟨b, other, isB, isOld, isActive⟩
    · exact notSlot kind k inside isSlot.symm
    · have same : h = b := Nat.add_right_cancel isB
      rw [← same] at isOld isActive
      exact served.fresh other isOld isActive
  have sorted' : Sorted heap' ((h + sizeofHeader) :: live.map Prod.fst) owner' lists' := by
    refine ⟨placed, List.nodup_cons.mpr ⟨isNew, sorted.nodup⟩, ?_, ?_, ?_⟩
    · intro kind
      rw [samePool]
      refine (sorted.slots kind).congr fun k inside => ?_
      rw [List.mem_cons]
      exact or_iff_right (notSlot kind k inside)
    · intro q member
      unfold IsSlot slotAt
      rw [samePool]
      rcases List.mem_cons.mp member with isQ | isOld
      · exact .inr ⟨h, page, isQ, isOwner, served.isActive⟩
      · refine (sorted.isPlace q isOld).imp id ?_
        rintro ⟨b, other, isB, isBlock, isActive⟩
        obtain ⟨bOwner, _, bFlags⟩ := served.spares b other isBlock isActive
        exact ⟨b, other, isB, bOwner, bFlags⟩
    · intro b other isB isUsed
      by_cases isHere : b = h
      · rw [isHere]
        exact List.mem_cons_self
      · obtain ⟨isOld, wasUsed⟩ := served.gains b other isB isUsed isHere
        exact List.mem_cons_of_mem _ (sorted.isListed isOld wasUsed)
  refine ⟨⟨owner', lists', ?_⟩, ?_, .inr (.inr ⟨page, chained.isPage isOwner, h, ?_, rfl, ?_,
    (chained.block isOwner).high⟩), fun _ => ?_⟩
  · rw [if_neg nonzero]
    exact sorted'
  · intro q member
    refine usable_same sorted.toPlaced placed samePool ((sorted.isPlace q member).imp id ?_)
    rintro ⟨b, other, isB, isBlock, isActive⟩
    obtain ⟨bOwner, bSize, _⟩ := served.spares b other isBlock isActive
    exact ⟨b, other, isB, isBlock, bOwner, bSize⟩
  · exact (chained.mem_blocks (chained.isPage isOwner)).mpr isOwner
  · have large := served.large
    have positive := (chained.block isOwner).large
    unfold sizeofHeader
    omega
  · rw [usable_block placed isOwner]
    exact Nat.sub_le_sub_right served.large _

/-! ## The sizes -/

theorem roundUp_small (s : Nat) (large : 64 < s) (small : s ≤ 2 ^ 20 - 8) :
    ∃ r, Heap.roundUp s = some r ∧ IsPower r ∧ s + sizeofHeader ≤ r ∧
      log2 r = log2 (s + 7) + 1 := by
  have noWrap : (s + 8) % 2 ^ 64 = s + 8 := Nat.mod_eq_of_lt (by omega)
  have below : (s + 7).log2 < 20 := (Nat.log2_lt (by omega)).mpr (by omega)
  have above : s + 7 < 2 ^ ((s + 7).log2 + 1) := Nat.lt_log2_self
  have low : 6 ≤ (s + 7).log2 := (Nat.le_log2 (by omega)).mpr (by omega)
  have least : 2 ^ 7 ≤ 2 ^ ((s + 7).log2 + 1) := Nat.pow_le_pow_right (by decide) (by omega)
  refine ⟨2 ^ ((s + 7).log2 + 1), ?_, ⟨(s + 7).log2 + 1, by omega, by omega, rfl⟩, ?_, ?_⟩
  · unfold Heap.roundUp log2
    rw [noWrap]
    dsimp only
    rw [if_neg (show ¬ s + 8 < 32 by omega)]
    have pred : s + 8 - 1 = s + 7 := rfl
    rw [pred, if_neg (by omega), if_neg (by omega)]
  · unfold sizeofHeader
    omega
  · unfold log2
    exact Nat.log2_two_pow

theorem roundUp_wrapped (s : Nat) (large : 2 ^ 64 - 8 ≤ s) (word : s < 2 ^ 64) :
    Heap.roundUp s = some 32 := by
  have wraps : (s + 8) % 2 ^ 64 < 32 := by omega
  unfold Heap.roundUp
  dsimp only
  rw [if_pos wraps]
  decide

theorem roundUp_large (s : Nat) (large : 2 ^ 20 - 8 < s) (noWrap : s < 2 ^ 64 - 8) {r : Nat}
    (isRound : Heap.roundUp s = some r) : 2 ^ 21 ≤ r ∧ r < 2 ^ 31 ∧ 21 ≤ log2 r := by
  have same : (s + 8) % 2 ^ 64 = s + 8 := Nat.mod_eq_of_lt (by omega)
  have low : 20 ≤ (s + 7).log2 := (Nat.le_log2 (by omega)).mpr (by omega)
  have least : 2 ^ 21 ≤ 2 ^ ((s + 7).log2 + 1) := Nat.pow_le_pow_right (by decide) (by omega)
  unfold Heap.roundUp log2 at isRound
  rw [same] at isRound
  dsimp only at isRound
  rw [if_neg (show ¬ s + 8 < 32 by omega)] at isRound
  have pred : s + 8 - 1 = s + 7 := rfl
  rw [pred] at isRound
  split at isRound
  · cases isRound
  · next small =>
      rw [if_neg (by omega)] at isRound
      cases isRound
      refine ⟨least, Nat.pow_lt_pow_right (by decide) (by omega), ?_⟩
      unfold log2
      rw [Nat.log2_two_pow]
      omega

/-! ## Allocation -/

/-- There is a free block that is large enough, or the system has a page. -/
def HasRoom (heap : Heap) (answer s : Nat) : Prop :=
  s ≤ 64 ∨ answer ≠ 0 ∨ ∃ bin, log2 (s + 7) < bin ∧ bin < numBins ∧ heap.bins bin ≠ 0

theorem given_of (isAnswer : answer = 0 ∨ PageGiven heap answer) (nonzero : answer ≠ 0) :
    Given heap answer := by
  have given := isAnswer.resolve_left nonzero
  exact ⟨nonzero, fun page isPage => given.apart page (by simp [regions, isPage])⟩

theorem isActive_served {h r : Nat} (served : Served heap owner answer r h heap' owner' lists') :
    heap'.isActive h = true := by
  unfold Heap.isActive
  rw [served.isActive]
  decide

/-- A request that is more than a slot is served from the pages. -/
theorem malloc_of_available {r : Nat} (sorted : Sorted heap (live.map Prod.fst) owner lists)
    (isAnswer : answer = 0 ∨ PageGiven heap answer) (notSmall : ¬ s ≤ 64)
    (isRound : Heap.roundUp s = some r) (isPower : IsPower r)
    (available : Available heap answer (log2 r) numBins) :
    ∃ h heap', heap.fcMalloc answer s = some (h + sizeofHeader, heap') ∧
      Malloced ⟨heap, live⟩ s (r - sizeofHeader) (h + sizeofHeader) heap' := by
  obtain ⟨h, heap', owner', lists', isAlloc, served⟩ := alloc_spec sorted.kept isPower available
  refine ⟨h, heap', ?_, served_spec sorted isAnswer served⟩
  unfold Heap.fcMalloc
  simp only [if_neg notSmall, isRound, isAlloc, assert_of (isActive_served served),
    Option.bind_eq_bind, Option.bind_some, Option.pure_def]

theorem malloc_of_not_available {r : Nat} (notSmall : ¬ s ≤ 64)
    (isRound : Heap.roundUp s = some r)
    (noBin : ∀ bin, log2 r ≤ bin → bin < numBins → heap.bins bin = 0) :
    heap.fcMalloc 0 s = none := by
  have isNone : heap.alloc 0 r = none := alloc_none noBin nofun
  unfold Heap.fcMalloc
  rw [if_neg notSmall, isRound, Option.bind_eq_bind, Option.bind_some, isNone]
  rfl

theorem Malloced.mono {state : State} {more : Nat} (malloced : Malloced state s more p heap')
    (less : granted ≤ more) : Malloced state s granted p heap' := by
  refine ⟨malloced.inv, malloced.same, malloced.holds.imp id ?_,
    fun nonzero => less.trans (malloced.large nonzero)⟩
  rintro (⟨kind, isSlot, bound⟩ | ⟨page, isPage, b, isB, isP, bound, rest⟩)
  · exact .inl ⟨kind, isSlot, less.trans bound⟩
  · exact .inr ⟨page, isPage, b, isB, isP, by omega, rest⟩

/-- A request that is not too large is met. -/
theorem malloc_spec (sorted : Sorted heap (live.map Prod.fst) owner lists)
    (isAnswer : answer = 0 ∨ PageGiven heap answer) (small : s ≤ 2 ^ 20 - 8)
    (room : HasRoom heap answer s) :
    ∃ p heap', heap.fcMalloc answer s = some (p, heap') ∧
      Malloced ⟨heap, live⟩ s s p heap' := by
  by_cases is64 : s ≤ 64
  · unfold Heap.fcMalloc
    rw [if_pos is64]
    split
    · next is32 => exact ⟨_, _, rfl, alloc32_spec sorted is32⟩
    · exact ⟨_, _, rfl, alloc64_spec sorted is64⟩
  · obtain ⟨r, isRound, isPower, fits, isLog⟩ := roundUp_small s (by omega) small
    have available : Available heap answer (log2 r) numBins := by
      rcases room with isSmall | nonzero | ⟨bin, low, high, nonempty⟩
      · omega
      · exact .inr (given_of isAnswer nonzero)
      · exact .inl ⟨bin, by omega, high, nonempty⟩
    obtain ⟨h, heap', isCall, malloced⟩ :=
      malloc_of_available sorted isAnswer is64 isRound isPower available
    exact ⟨_, _, isCall, malloced.mono (by omega)⟩

theorem malloc_wrapped (sorted : Sorted heap (live.map Prod.fst) owner lists)
    (isAnswer : answer = 0 ∨ PageGiven heap answer) (large : 2 ^ 64 - 8 ≤ s) (word : s < 2 ^ 64) :
    heap.fcMalloc answer s = none ∨ ∃ p heap', heap.fcMalloc answer s = some (p, heap') ∧
      Malloced ⟨heap, live⟩ s 24 p heap' ∧ p ≠ 0 := by
  have isRound := roundUp_wrapped s large word
  have isPower : IsPower 32 := ⟨5, by decide, by decide, rfl⟩
  by_cases available : Available heap answer (log2 32) numBins
  · obtain ⟨h, heap', isCall, malloced⟩ :=
      malloc_of_available sorted isAnswer (by omega) isRound isPower available
    exact .inr ⟨_, _, isCall, malloced, Nat.succ_ne_zero _⟩
  · have isZero : answer = 0 := by
      by_contra nonzero
      exact available (.inr (given_of isAnswer nonzero))
    subst isZero
    refine .inl (malloc_of_not_available (by omega) isRound fun bin low high => ?_)
    by_contra nonempty
    exact available (.inl ⟨bin, low, high, nonempty⟩)

/-- Without room there is no result. -/
theorem malloc_none_of_room (small : s ≤ 2 ^ 20 - 8) (noRoom : ¬ HasRoom heap answer s) :
    heap.fcMalloc answer s = none := by
  unfold HasRoom at noRoom
  rw [not_or, not_or, not_not] at noRoom
  obtain ⟨notSmall, isZero, noBin⟩ := noRoom
  obtain ⟨r, isRound, _, _, isLog⟩ := roundUp_small s (by omega) small
  subst isZero
  refine malloc_of_not_available notSmall isRound fun bin low high => ?_
  by_contra nonempty
  exact noBin ⟨bin, by omega, high, nonempty⟩

/-- Half a page and more is never served. -/
theorem malloc_none_of_large (placed : Placed heap owner lists)
    (isAnswer : answer = 0 ∨ PageGiven heap answer) (large : 2 ^ 20 - 8 < s)
    (noWrap : s < 2 ^ 64 - 8) : heap.fcMalloc answer s = none := by
  unfold Heap.fcMalloc
  rw [if_neg (by omega)]
  cases isRound : Heap.roundUp s with
  | none => rfl
  | some r =>
      obtain ⟨low, high, isLog⟩ := roundUp_large s large noWrap isRound
      have isNone : heap.alloc answer r = none := by
        apply alloc_none
        · exact fun other above _ => placed.kept.bins_eq_zero (by omega)
        · intro page isPage
          by_cases isZero : answer = 0
          · rw [isZero] at isPage
            cases isPage
          · obtain ⟨page', isPage', _, isSize, _⟩ :=
              newPage_spec placed.kept (given_of isAnswer isZero)
            rw [isPage] at isPage'
            cases isPage'
            refine carve_none ?_ (by omega)
            rw [isSize]
            unfold pageSizeMax
            omega
      rw [Option.bind_eq_bind, Option.bind_some, isNone]
      rfl

/-! ## Frees -/

theorem map_eraseP (live : List (Nat × Nat)) (f : Nat) :
    (live.eraseP fun used => used.1 = f).map Prod.fst = (live.map Prod.fst).erase f := by
  rw [List.erase_eq_eraseP', List.eraseP_map]
  congr 2

/-- A pointer in use is freed, and the others stay. -/
theorem fcFree_spec (sorted : Sorted heap (live.map Prod.fst) owner lists) {f : Nat}
    (member : f ∈ live.map Prod.fst) :
    ∃ heap', heap.fcFree f = some heap' ∧
      Inv ⟨heap', live.eraseP fun used => used.1 = f⟩ ∧
      ∀ q ∈ live.map Prod.fst, q ≠ f → usable heap' q = usable heap q := by
  unfold Heap.fcFree Inv ptrs
  simp only [map_eraseP]
  rcases sorted.isPlace f member with ⟨kind, isSlot⟩ | ⟨b, page, isF, isOwner, isActive⟩
  · obtain ⟨pool, isFreed, after, same⟩ := sorted.gave member isSlot
    cases kind with
    | of32 =>
        refine ⟨setPool heap .of32 pool, ?_, ⟨owner, lists, after⟩, fun q _ _ => same q⟩
        rw [show heap.pool32.free 32 f = some pool from isFreed]
        rfl
    | of64 =>
        refine ⟨setPool heap .of64 pool, ?_, ⟨owner, lists, after⟩, fun q _ _ => same q⟩
        obtain ⟨k, inside, rfl⟩ := isSlot
        have notIn : ¬ InPool heap .of32 (slotAt heap .of64 k) := fun isIn =>
          nomatch (inPool_slot sorted.toPlaced inside).mp isIn
        have outside : heap.pool32.free 32 (slotAt heap .of64 k) = none := Pool.free_outside notIn
        rw [outside, show heap.pool64.free 64 (slotAt heap .of64 k) = some pool from isFreed]
        rfl
  · have not32 : heap.pool32.free 32 (b + sizeofHeader) = none :=
      Pool.free_outside (block_outside sorted.toPlaced .of32 isOwner)
    have not64 : heap.pool64.free 64 (b + sizeofHeader) = none :=
      Pool.free_outside (block_outside sorted.toPlaced .of64 isOwner)
    rw [isF, not32, not64]
    dsimp only
    rw [Nat.add_sub_cancel]
    obtain ⟨heap', owner', lists', isFreed, kept, notActive, frees⟩ :=
      free_spec sorted.kept isOwner isActive List.not_mem_nil
    have samePool := poolOf_congr frees.pool32 frees.pool64
    have placed : Placed heap' owner' lists' := sorted.toPlaced.paged kept samePool
      fun kind page isPage => page_apart sorted.toPlaced kind (frees.pages isPage)
    have spared : ∀ c other, owner c = some other → (heap.header c).flags = active → c ≠ b →
        owner' c = some other ∧ heap'.size c = heap.size c ∧
          (heap'.header c).flags = active := by
      intro c other isC isUsed different
      obtain ⟨cOwner, cSize, cFlags⟩ := frees.spares c other isC different (by rw [isUsed]; decide)
      exact ⟨cOwner, cSize, cFlags.trans isUsed⟩
    refine ⟨heap', isFreed, ⟨owner', lists', placed, sorted.nodup.erase _, ?_, ?_, ?_⟩, ?_⟩
    · intro kind
      rw [samePool]
      refine (sorted.slots kind).congr fun k inside => ?_
      rw [sorted.nodup.mem_erase_iff]
      exact and_iff_right (block_ne_slot sorted.toPlaced isOwner inside)
    · intro q isLeft
      obtain ⟨different, isOld⟩ := sorted.nodup.mem_erase_iff.mp isLeft
      unfold IsSlot slotAt
      rw [samePool]
      refine (sorted.isPlace q isOld).imp id ?_
      rintro ⟨c, other, isC, isBlock, isUsed⟩
      obtain ⟨cOwner, _, cFlags⟩ := spared c other isBlock isUsed
        fun same => different (same ▸ isC)
      exact ⟨c, other, isC, cOwner, cFlags⟩
    · intro c other isC isUsed
      have different : c ≠ b := by
        rintro rfl
        exact notActive other isC isUsed
      obtain ⟨isOld, wasUsed⟩ := frees.gains c other isC isUsed
      refine (List.mem_erase_of_ne ?_).mpr (sorted.isListed isOld wasUsed)
      exact fun same => different (Nat.add_right_cancel same)
    · intro q isOld different
      refine usable_same sorted.toPlaced placed samePool ((sorted.isPlace q isOld).imp id ?_)
      rintro ⟨c, other, isC, isBlock, isUsed⟩
      obtain ⟨cOwner, cSize, _⟩ := spared c other isBlock isUsed
        fun same => different (same ▸ isC)
      exact ⟨c, other, isC, isBlock, cOwner, cSize⟩

end State

end MallocSurvey.FcMalloc.FcHeap
