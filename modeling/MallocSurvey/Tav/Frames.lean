import MallocSurvey.Tav.System

/-! # What a step on one megablock leaves as it is -/

namespace MallocSurvey.Tav

open Library

variable {platform : Platform} {old new : Allocator} {mb index carved : Nat}
  {live chain : List Nat}

/-! ## Blocks of a megablock -/

/-- The addresses that the blocks of a megablock take. -/
def Holds (mb address : Nat) : Prop :=
  mb + megaBlockHeaderSize ≤ address ∧ address < mb + megaBlockHeaderSize + megaBlockSize

theorem slot_bounds (low : 12 ≤ index) (high : index ≤ 56)
    (bound : carved ≤ blockCount platform index) {block : Nat}
    (member : block ∈ slots platform mb index carved) :
    mb + megaBlockHeaderSize ≤ block ∧
      block + getSizeFromIndex platform index ≤ mb + megaBlockHeaderSize + megaBlockSize := by
  obtain ⟨position, inRange, isBlock⟩ := mem_run.mp member
  have product : (position + 1) * getSizeFromIndex platform index ≤
      blockCount platform index * getSizeFromIndex platform index :=
    Nat.mul_le_mul_right _ (by omega)
  have whole := (blockCount_bounds platform low high).2
  rw [Nat.succ_mul] at product
  omega

/-- Two blocks of a megablock are the same or apart. -/
theorem slots_apart {left right : Nat} (leftMem : left ∈ slots platform mb index carved)
    (rightMem : right ∈ slots platform mb index carved) (different : left ≠ right) :
    Library.Apart left (getSizeFromIndex platform index) right
      (getSizeFromIndex platform index) := by
  obtain ⟨first, _, isLeft⟩ := mem_run.mp leftMem
  obtain ⟨second, _, isRight⟩ := mem_run.mp rightMem
  unfold Library.Apart
  rcases Nat.lt_trichotomy first second with below | same | above
  · have product := Nat.mul_le_mul_right (getSizeFromIndex platform index)
      (Nat.succ_le_of_lt below)
    rw [Nat.succ_mul] at product
    omega
  · rw [same] at isLeft
    omega
  · have product := Nat.mul_le_mul_right (getSizeFromIndex platform index)
      (Nat.succ_le_of_lt above)
    rw [Nat.succ_mul] at product
    omega

/-- Headers of megablocks that are apart have no address in common with the blocks. -/
theorem not_holds_of_apart {other address : Nat}
    (apart : (megaExtent mb).Apart (megaExtent other)) (holds : Holds mb address) :
    ¬ Holds other address := by
  unfold megaExtent Extent.Apart Library.Apart at apart
  unfold Holds at *
  have positive : 0 < megaBlockSize := by decide
  dsimp only at apart
  omega

namespace InUse

theorem size_pos (inUse : InUse platform old mb index live chain carved) :
    0 < getSizeFromIndex platform index := by
  have bounds := size_bounds platform inUse.low inUse.high
  omega

theorem mem_slots (inUse : InUse platform old mb index live chain carved) {block : Nat}
    (member : block ∈ chain ∨ block ∈ live) : block ∈ slots platform mb index carved :=
  inUse.blocks.mem_iff.mp (List.mem_append.mpr member)

theorem nodup (inUse : InUse platform old mb index live chain carved) :
    (chain ++ live).Nodup :=
  inUse.blocks.nodup_iff.mpr (run_nodup _ _ inUse.size_pos)

theorem length (inUse : InUse platform old mb index live chain carved) :
    chain.length + live.length = carved := by
  rw [← List.length_append, inUse.blocks.length_eq, slots, run_length]

theorem holds (inUse : InUse platform old mb index live chain carved) {block : Nat}
    (member : block ∈ slots platform mb index carved) : Holds mb block := by
  have bounds := slot_bounds inUse.low inUse.high inUse.bound member
  have positive := inUse.size_pos
  unfold Holds
  omega

end InUse

/-- What is read of a megablock is the same, up to the contents of its live blocks. -/
structure Alike (old new : Allocator) (live : List Nat) (mb : Nat) : Prop where
  firstBlock : new.heap.firstBlock mb = old.heap.firstBlock mb
  index : new.heap.index mb = old.heap.index mb
  numOfAllocatedBlocks : new.heap.numOfAllocatedBlocks mb = old.heap.numOfAllocatedBlocks mb
  nextFreeBlock : ∀ block, Holds mb block → block ∉ live →
    new.heap.nextFreeBlock block = old.heap.nextFreeBlock block
  megaBlock : ∀ block, Holds mb block → new.heap.megaBlock block = old.heap.megaBlock block
  justAllocated : ∀ index,
    new.context.justAllocated index = mb ↔ old.context.justAllocated index = mb
  rest : ∀ index, old.context.justAllocated index = mb →
    new.context.blocksLeft index = old.context.blocksLeft index ∧
      new.context.nextFreeBlock index = old.context.nextFreeBlock index

namespace Alike

theorem trans {middle : Allocator} (left : Alike old middle live mb)
    (right : Alike middle new live mb) : Alike old new live mb where
  firstBlock := right.firstBlock.trans left.firstBlock
  index := right.index.trans left.index
  numOfAllocatedBlocks := right.numOfAllocatedBlocks.trans left.numOfAllocatedBlocks
  nextFreeBlock block holds notLive :=
    (right.nextFreeBlock block holds notLive).trans (left.nextFreeBlock block holds notLive)
  megaBlock block holds := (right.megaBlock block holds).trans (left.megaBlock block holds)
  justAllocated index := (right.justAllocated index).trans (left.justAllocated index)
  rest index isCarving := by
    have middle := right.rest index ((left.justAllocated index).mpr isCarving)
    have first := left.rest index isCarving
    exact ⟨middle.1.trans first.1, middle.2.trans first.2⟩

theorem of_same (same : SameBlocks old new) : Alike old new live mb where
  firstBlock := congrFun same.firstBlock mb
  index := congrFun same.index mb
  numOfAllocatedBlocks := congrFun same.numOfAllocatedBlocks mb
  nextFreeBlock block _ _ := congrFun same.nextFreeBlock block
  megaBlock block _ := congrFun same.megaBlock block
  justAllocated index := by rw [same.justAllocated]
  rest index _ := ⟨congrFun same.blocksLeft index, congrFun same.nextCarved index⟩

end Alike

theorem InUse.congr (inUse : InUse platform old mb index live chain carved)
    (alike : Alike old new live mb) : InUse platform new mb index live chain carved where
  isIndex := alike.index.trans inUse.isIndex
  low := inUse.low
  high := inUse.high
  first := alike.firstBlock.trans inUse.first
  linked := by
    apply inUse.linked.congr
    intro block member
    apply alike.nextFreeBlock block (inUse.holds (inUse.mem_slots (.inl member)))
    exact fun isLive => (List.nodup_append.mp inUse.nodup).2.2 block member block isLive rfl
  blocks := inUse.blocks
  owner block member :=
    (alike.megaBlock block (inUse.holds member)).trans (inUse.owner block member)
  counted := alike.numOfAllocatedBlocks.trans inUse.counted
  positive := inUse.positive
  bound := inUse.bound
  whole notCarving := inUse.whole fun isCarving =>
    notCarving ((alike.justAllocated index).mpr isCarving)
  rest isCarving := by
    have wasCarving := (alike.justAllocated index).mp isCarving
    obtain ⟨below, left, next⟩ := inUse.rest wasCarving
    obtain ⟨sameLeft, sameNext⟩ := alike.rest index wasCarving
    exact ⟨below, sameLeft.trans left, sameNext.trans next⟩

theorem Standing.congr {place : Place} (standing : Standing platform old live mb place)
    (alike : Alike old new live mb) : Standing platform new live mb place := by
  cases place with
  | free => exact ⟨standing.1, alike.numOfAllocatedBlocks.trans standing.2⟩
  | filled =>
      obtain ⟨index, carved, inUse⟩ := standing
      exact ⟨index, carved, inUse.congr alike⟩
  | partly index =>
      obtain ⟨chain, carved, nonempty, inUse, positive⟩ := standing
      refine ⟨chain, carved, nonempty, inUse.congr alike, ?_⟩
      rw [alike.numOfAllocatedBlocks]
      exact positive

/-! ## The invariant -/

theorem mine_cons (block : Block) (blocks : List Block) (mb : Nat) :
    mine (block :: blocks) mb =
      if block.megaBlock = mb then block.header :: mine blocks mb else mine blocks mb := by
  unfold mine
  by_cases same : block.megaBlock = mb
  · simp [same]
  · simp [same]

theorem mem_mine {blocks : List Block} {header : Nat} :
    header ∈ mine blocks mb ↔ ∃ block ∈ blocks, block.megaBlock = mb ∧ block.header = header := by
  simp [mine, and_assoc]

namespace Inv

variable {state next : State} {lists newLists : Place → List Nat}

theorem mb_ne_zero (inv : Inv platform state lists) (member : mb ∈ state.megaBlocks) :
    mb ≠ 0 := by
  obtain ⟨place, onList⟩ := (inv.known mb).mp member
  exact inv.shelved.ne_zero onList

theorem mega_apart (inv : Inv platform state lists) {other : Nat}
    (member : mb ∈ state.megaBlocks) (otherMem : other ∈ state.megaBlocks)
    (different : mb ≠ other) : (megaExtent mb).Apart (megaExtent other) := by
  have apart := (List.pairwise_append.mp inv.apart).1
  exact Extent.apart_of_map apart member otherMem different

/-- The megablock of a live block is filled or partly free. -/
theorem inUse (inv : Inv platform state lists) {block : Block} (member : block ∈ state.live)
    (nonzero : block.megaBlock ≠ 0) :
    ∃ chain carved, InUse platform state.allocator block.megaBlock (classOf platform block.size)
        (mine state.live block.megaBlock) chain carved ∧
      block.header ∈ mine state.live block.megaBlock ∧
      (block.megaBlock ∈ lists .filled ∧ chain = [] ∨
        block.megaBlock ∈ lists (.partly (classOf platform block.size)) ∧ chain ≠ [] ∧
          0 < state.allocator.heap.numOfAllocatedBlocks block.megaBlock) := by
  obtain ⟨isKnown, _, isClass⟩ := inv.owned block member nonzero
  obtain ⟨place, onList⟩ := (inv.known _).mp isKnown
  have isMine : block.header ∈ mine state.live block.megaBlock :=
    mem_mine.mpr ⟨block, member, rfl, rfl⟩
  have standing := inv.standing place _ onList
  cases place with
  | free =>
      rw [standing.1] at isMine
      cases isMine
  | filled =>
      obtain ⟨index, carved, inUse⟩ := standing
      have sameIndex : index = classOf platform block.size := inUse.isIndex.symm.trans isClass
      exact ⟨[], carved, sameIndex ▸ inUse, isMine, .inl ⟨onList, rfl⟩⟩
  | partly index =>
      obtain ⟨chain, carved, nonempty, inUse, positive⟩ := standing
      have sameIndex : index = classOf platform block.size := inUse.isIndex.symm.trans isClass
      exact ⟨chain, carved, sameIndex ▸ inUse, isMine,
        .inr ⟨sameIndex ▸ onList, nonempty, positive⟩⟩

/-- A step that concerns one megablock. -/
theorem update (inv : Inv platform state lists)
    (shelved : Shelved next.allocator newLists)
    (others : ∀ other, other ≠ mb → ∀ place, other ∈ newLists place ↔ other ∈ lists place)
    (listed : ∃ place, mb ∈ newLists place)
    (known : ∀ other, other ≠ mb → (other ∈ next.megaBlocks ↔ other ∈ state.megaBlocks))
    (given : mb ∈ next.megaBlocks)
    (alike : ∀ other ∈ state.megaBlocks, other ≠ mb →
      Alike state.allocator next.allocator (mine state.live other) other)
    (sameMine : ∀ other, other ≠ mb → mine next.live other = mine state.live other)
    (standing : ∀ place, mb ∈ newLists place →
      Standing platform next.allocator (mine next.live mb) mb place)
    (carving : ∀ index, next.allocator.context.justAllocated index = mb →
      (∃ place, place ≠ .free ∧ mb ∈ newLists place) ∧ next.allocator.heap.index mb = index)
    (carvingOther : ∀ index, next.allocator.context.justAllocated index ≠ mb →
      next.allocator.context.justAllocated index = 0 ∨
        next.allocator.context.justAllocated index = state.allocator.context.justAllocated index)
    (kept : ∀ block ∈ next.live, block.megaBlock ≠ mb → block ∈ state.live)
    (sameHeader : ∀ block ∈ state.live, block.megaBlock = 0 →
      next.allocator.heap.megaBlock block.header = state.allocator.heap.megaBlock block.header)
    (owned : ∀ block ∈ next.live, block.megaBlock = mb →
      block.size ≤ maxBlockSize - blockHeaderSize ∧
        next.allocator.heap.index mb = classOf platform block.size ∧
        next.allocator.heap.megaBlock block.header = mb)
    (apart : (regions next).Pairwise Extent.Apart) : Inv platform next newLists := by
  have mbNonzero : mb ≠ 0 := by
    obtain ⟨place, member⟩ := listed
    exact shelved.ne_zero member
  have isKnown : ∀ place, ∀ other ∈ lists place, other ∈ state.megaBlocks :=
    fun place other member => (inv.known other).mpr ⟨place, member⟩
  refine ⟨shelved, ?_, ?_, ?_, ?_, ?_, ?_, apart⟩
  · intro other
    by_cases same : other = mb
    · exact same ▸ iff_of_true given listed
    · rw [known other same, inv.known]
      exact exists_congr fun place => (others other same place).symm
  · intro place other member
    by_cases same : other = mb
    · subst same
      exact standing place member
    · have wasMember := (others other same place).mp member
      rw [sameMine other same]
      exact (inv.standing place other wasMember).congr
        (alike other (isKnown place other wasMember) same)
  · intro index nonzero
    by_cases same : next.allocator.context.justAllocated index = mb
    · obtain ⟨⟨place, notFree, member⟩, isIndex⟩ := carving index same
      exact ⟨place, notFree, same ▸ member, same ▸ isIndex⟩
    · have isOld := (carvingOther index same).resolve_left nonzero
      rw [isOld] at nonzero same ⊢
      obtain ⟨place, notFree, member, isIndex⟩ := inv.carving index nonzero
      refine ⟨place, notFree, (others _ same place).mpr member, ?_⟩
      rw [(alike _ (isKnown place _ member) same).index, isIndex]
  · intro block member isSystem
    exact inv.system block (kept block member (isSystem ▸ mbNonzero.symm)) isSystem
  · intro block member notSystem
    by_cases same : block.megaBlock = mb
    · obtain ⟨small, isClass, _⟩ := owned block member same
      exact ⟨same ▸ given, small, same ▸ isClass⟩
    · obtain ⟨wasKnown, small, isClass⟩ := inv.owned block (kept block member same) notSystem
      refine ⟨(known _ same).mpr wasKnown, small, ?_⟩
      rw [(alike _ wasKnown same).index, isClass]
  · intro block member
    by_cases same : block.megaBlock = mb
    · rw [(owned block member same).2.2, same]
    · have wasLive := kept block member same
      have wasHeader := inv.header block wasLive
      by_cases isSystem : block.megaBlock = 0
      · rw [sameHeader block wasLive isSystem, wasHeader]
      · obtain ⟨wasKnown, _, _⟩ := inv.owned block wasLive isSystem
        obtain ⟨chain, carved, inUse, isMine, _⟩ := inv.inUse wasLive isSystem
        have holds := inUse.holds (inUse.mem_slots (.inr isMine))
        rw [(alike _ wasKnown same).megaBlock _ holds, wasHeader]

end Inv

end MallocSurvey.Tav
