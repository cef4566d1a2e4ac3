import MallocSurvey.Tlsf.Representation

/-! # Removing blocks from their lists and inserting them

Only the links of free blocks and of `block_null` change. -/

namespace MallocSurvey.Tlsf

open Library

/-- A place where links are stored. -/
def IsNode (address : Nat) (pieces : List Piece) (node : Nat) : Prop :=
  node = address ∨ ∃ piece ∈ pieces, piece.free = true ∧ piece.ptr = node

/-- Only links change. -/
def LinksOnly (address : Nat) (pieces : List Piece) (memory newMemory : Memory) : Prop :=
  ∀ place, (∀ node, IsNode address pieces node → ¬ (node + 16 ≤ place ∧ place < node + 32)) →
    newMemory place = memory place

section Nodes

variable {pools : List (Nat × Nat)} {address : Nat} {pieces : List Piece} {piece : Piece}
  {memory newMemory : Memory} {node other place : Nat} (laid : Laid pools address pieces)

include laid

theorem Laid.node_bounds (isNode : IsNode address pieces node) :
    node % 8 = 0 ∧ 0 < node ∧ node < 2 ^ 64 := by
  rcases isNode with isNull | ⟨piece, member, isFree, isPtr⟩
  · have fits := laid.fits
    exact ⟨isNull ▸ laid.aligned, isNull ▸ laid.nonzero, by omega⟩
  · obtain ⟨aligned, nonzero, _, _, fits, _⟩ := laid.piece_bounds member
    omega

/-- The links of different nodes do not overlap. -/
theorem Laid.nodes_apart (isNode : IsNode address pieces node)
    (otherNode : IsNode address pieces other) :
    node = other ∨ node + 24 ≤ other ∨ other + 24 ≤ node := by
  rcases isNode with isNull | ⟨piece, member, isFree, isPtr⟩
  · rcases otherNode with alsoNull | ⟨piece, member, isFree, isPtr⟩
    · exact .inl (isNull.trans alsoNull.symm)
    · have apart := laid.null_apart member
      have least := laid.free_len member isFree
      omega
  · have least := laid.free_len member isFree
    rcases otherNode with isNull | ⟨second, secondMember, _, secondPtr⟩
    · have apart := laid.null_apart member
      omega
    · by_cases same : piece = second
      · exact .inl (by rw [← isPtr, same, secondPtr])
      · have apart := laid.different_tiles member secondMember same
        have secondLeast := laid.free_len secondMember (by assumption)
        unfold Extent.Apart Apart tile at apart
        dsimp only at apart
        omega

/-- The links lie behind the tag of their block and in front of its end. -/
theorem Laid.not_link (member : piece ∈ pieces) (owned : Owns 8 piece place)
    (noLink : piece.free = true → place < piece.ptr + 16 ∨ piece.ptr + 32 ≤ place)
    (isNode : IsNode address pieces node) : ¬ (node + 16 ≤ place ∧ place < node + 32) := by
  rcases isNode with isNull | ⟨second, secondMember, isFree, isPtr⟩
  · have apart := laid.null_apart member
    unfold Owns at owned
    omega
  · by_cases same : piece = second
    · have outside := noLink (same ▸ isFree)
      rw [same] at outside
      omega
    · have least := laid.free_len secondMember isFree
      have notOwned := not_owns_of_apart (laid.different_tiles member secondMember same) owned
      unfold Owns at notOwned
      omega

theorem LinksOnly.tagged (linksOnly : LinksOnly address pieces memory newMemory)
    {prevFree : Bool} (tagged : Tagged 8 memory prevFree pieces) :
    Tagged 8 newMemory prevFree pieces := by
  apply tagged.congr
  · intro piece member
    apply loadPointer_congr
    intro place low high
    exact linksOnly place fun node isNode =>
      laid.not_link member ⟨low, by omega⟩ (fun _ => .inl (by omega)) isNode
  · intro piece member isFree
    have least := laid.free_len member isFree
    apply loadPointer_congr
    intro place low high
    exact linksOnly place fun node isNode =>
      laid.not_link member ⟨by omega, by omega⟩ (fun _ => .inr (by omega)) isNode

theorem LinksOnly.kept (linksOnly : LinksOnly address pieces memory newMemory) :
    Kept (usedPieces pieces) memory newMemory := by
  intro piece used place low high
  obtain ⟨member, notFree⟩ := List.mem_filter.mp used
  refine linksOnly place fun node isNode =>
    laid.not_link member ⟨by omega, by omega⟩ (fun isFree => ?_) isNode
  simp [isFree] at notFree

end Nodes

namespace Rep

variable {pools : List (Nat × Nat)} {control : Control} {pieces : List Piece} {piece : Piece}
  {lists : Nat × Nat → List Nat} {loose : List Nat} {index : Nat × Nat} {node : Nat}

/-- A listed node is a free block. -/
theorem listed_node (rep : Rep pools control pieces lists loose) (member : node ∈ lists index) :
    IsNode control.address pieces node := by
  obtain ⟨piece, isPiece, isPtr, isFree, _⟩ := (rep.listed index node).mp member
  exact .inr ⟨piece, isPiece, isFree, isPtr⟩

theorem head_node (rep : Rep pools control pieces lists loose) (index : Nat × Nat) :
    IsNode control.address pieces (control.blocks index) := by
  by_cases isEmpty : lists index = []
  · exact .inl (rep.segregated.head_eq_null_iff.mpr isEmpty)
  · exact rep.listed_node (rep.segregated.head_mem isEmpty)

theorem next_node (rep : Rep pools control pieces lists loose) (member : node ∈ lists index) :
    IsNode control.address pieces (control.field node .nextFree) := by
  rcases rep.segregated.next_mem member with isNull | isListed
  · exact .inl isNull
  · exact rep.listed_node isListed

theorem prev_node (rep : Rep pools control pieces lists loose) (member : node ∈ lists index) :
    IsNode control.address pieces (control.field node .prevFree) := by
  rcases rep.segregated.prev_mem member with isNull | isListed
  · exact .inl isNull
  · exact rep.listed_node isListed

/-- The class of a block is one of the tables. -/
theorem indexed (rep : Rep pools control pieces lists loose) (member : piece ∈ pieces) :
    Indexed (classOf piece.len) ∧ mappingInsert .bits64 piece.len = some (classOf piece.len) := by
  have small : piece.len < blockSizeMax .bits64 := (rep.laid.piece_bounds member).2.2.2.1
  obtain ⟨fl, sl, isClass, flLt, slLt⟩ := inTables_mappingInsert.mpr small
  have isIndex : mappingInsert .bits64 piece.len = some (classOf piece.len) :=
    mappingInsert_eq .bits64 piece.len
  rw [isIndex, Option.some.injEq] at isClass
  refine ⟨?_, isIndex⟩
  rw [isClass]
  exact ⟨flLt, slLt⟩

end Rep

namespace Control

variable {pools : List (Nat × Nat)} {control : Control} {pieces : List Piece} {piece : Piece}
  {lists : Nat × Nat → List Nat} {loose : List Nat} {index : Nat × Nat} {node next prev : Nat}

/-- The neighbours in a list are linked to each other. -/
def linkNeighbours (control : Control) (next prev : Nat) : Control :=
  (control.setField next .prevFree prev).setField prev .nextFree next

section Linking

variable (laid : Laid pools control.address pieces)
  (nextNode : IsNode control.address pieces next) (prevNode : IsNode control.address pieces prev)

include laid nextNode prevNode

theorem linksOnly_linkNeighbours :
    LinksOnly control.address pieces control.memory (control.linkNeighbours next prev).memory := by
  intro place outside
  have notNext := outside next nextNode
  have notPrev := outside prev prevNode
  unfold linkNeighbours
  rw [setField_outside (by simp only [Field.offset]; omega),
    setField_outside (by simp only [Field.offset]; omega)]

theorem nextFree_linkNeighbours (isNode : IsNode control.address pieces node) :
    (control.linkNeighbours next prev).field node .nextFree =
      if node = prev then next else control.field node .nextFree := by
  obtain ⟨nodeAligned, _, _⟩ := laid.node_bounds isNode
  obtain ⟨nextAligned, _, nextFits⟩ := laid.node_bounds nextNode
  obtain ⟨prevAligned, _, prevFits⟩ := laid.node_bounds prevNode
  have apart := laid.nodes_apart isNode nextNode
  unfold linkNeighbours
  rw [field_setField prevAligned nodeAligned nextFits, field_setField_of_ne nextAligned nodeAligned]
  simp only [Field.offset]
  omega

theorem prevFree_linkNeighbours (isNode : IsNode control.address pieces node) :
    (control.linkNeighbours next prev).field node .prevFree =
      if node = next then prev else control.field node .prevFree := by
  obtain ⟨nodeAligned, _, _⟩ := laid.node_bounds isNode
  obtain ⟨nextAligned, _, nextFits⟩ := laid.node_bounds nextNode
  obtain ⟨prevAligned, _, prevFits⟩ := laid.node_bounds prevNode
  have apart := laid.nodes_apart isNode prevNode
  unfold linkNeighbours
  rw [field_setField_of_ne prevAligned nodeAligned, field_setField nextAligned nodeAligned prevFits]
  simp only [Field.offset]
  omega

end Linking

/-- A new first block is linked to the old one. -/
def linkFirst (control : Control) (block current : Nat) : Control :=
  ((control.setField block .nextFree current).setField block .prevFree control.address).setField
    current .prevFree block

section First

variable {block current : Nat} (laid : Laid pools control.address pieces)
  (blockNode : IsNode control.address pieces block)
  (currentNode : IsNode control.address pieces current)

include laid blockNode currentNode

theorem linksOnly_linkFirst :
    LinksOnly control.address pieces control.memory (control.linkFirst block current).memory := by
  intro place outside
  have notBlock := outside block blockNode
  have notCurrent := outside current currentNode
  unfold linkFirst
  rw [setField_outside (by simp only [Field.offset]; omega),
    setField_outside (by simp only [Field.offset]; omega),
    setField_outside (by simp only [Field.offset]; omega)]

theorem nextFree_linkFirst (isNode : IsNode control.address pieces node) :
    (control.linkFirst block current).field node .nextFree =
      if node = block then current else control.field node .nextFree := by
  obtain ⟨nodeAligned, _, _⟩ := laid.node_bounds isNode
  obtain ⟨blockAligned, _, blockFits⟩ := laid.node_bounds blockNode
  obtain ⟨currentAligned, _, currentFits⟩ := laid.node_bounds currentNode
  obtain ⟨_, _, nullFits⟩ := laid.node_bounds (.inl rfl)
  have apart := laid.nodes_apart isNode blockNode
  have currentApart := laid.nodes_apart isNode currentNode
  unfold linkFirst
  rw [field_setField_of_ne currentAligned nodeAligned,
    field_setField_of_ne blockAligned nodeAligned,
    field_setField blockAligned nodeAligned currentFits]
  · simp only [Field.offset]
    omega
  · simp only [Field.offset]
    omega

theorem prevFree_linkFirst (isNode : IsNode control.address pieces node) :
    (control.linkFirst block current).field node .prevFree =
      if node = current then block
      else if node = block then control.address
      else control.field node .prevFree := by
  obtain ⟨nodeAligned, _, _⟩ := laid.node_bounds isNode
  obtain ⟨blockAligned, _, blockFits⟩ := laid.node_bounds blockNode
  obtain ⟨currentAligned, _, currentFits⟩ := laid.node_bounds currentNode
  obtain ⟨_, _, nullFits⟩ := laid.node_bounds (.inl rfl)
  have apart := laid.nodes_apart isNode blockNode
  unfold linkFirst
  rw [field_setField currentAligned nodeAligned blockFits,
    field_setField blockAligned nodeAligned nullFits,
    field_setField_of_ne blockAligned nodeAligned]
  simp only [Field.offset]
  omega

end First

/-! ## Removing -/

/-- The part of `remove_free_block` after the assertions. -/
def unlinked (control : Control) (block : Nat) (index : Nat × Nat) : Control :=
  let linked := control.linkNeighbours (control.field block .nextFree) (control.field block .prevFree)
  if linked.blocks index = block then linked.setHead index (control.field block .nextFree)
  else linked

@[simp] theorem setHead_memory : (control.setHead index next).memory = control.memory := by
  unfold setHead
  dsimp only
  split <;> rfl

@[simp] theorem setHead_address : (control.setHead index next).address = control.address := by
  unfold setHead
  dsimp only
  split <;> rfl

@[simp] theorem setHead_blocks :
    (control.setHead index next).blocks = Function.update control.blocks index next := by
  unfold setHead
  dsimp only
  split <;> rfl

@[simp] theorem unlinked_memory (block : Nat) : (control.unlinked block index).memory =
    (control.linkNeighbours (control.field block .nextFree) (control.field block .prevFree)).memory := by
  unfold unlinked
  dsimp only
  split
  · exact setHead_memory
  · rfl

@[simp] theorem unlinked_address (block : Nat) :
    (control.unlinked block index).address = control.address := by
  unfold unlinked
  dsimp only
  split
  · exact setHead_address
  · rfl

theorem field_unlinked (block node : Nat) (name : Field) :
    (control.unlinked block index).field node name =
      (control.linkNeighbours (control.field block .nextFree) (control.field block .prevFree)).field
        node name := by
  unfold field
  rw [unlinked_memory]
  rfl

theorem removeFreeBlock_eq (rep : Rep pools control pieces lists loose)
    (listed : node ∈ lists index) (isIndexed : Indexed index) :
    control.removeFreeBlock node index = some (control.unlinked node index) := by
  obtain ⟨_, prevNonzero, _⟩ := rep.laid.node_bounds (rep.prev_node listed)
  obtain ⟨_, nextNonzero, _⟩ := rep.laid.node_bounds (rep.next_node listed)
  unfold removeFreeBlock
  rw [guard_bind isIndexed]
  dsimp only
  rw [guard_bind (Nat.ne_of_gt prevNonzero), guard_bind (Nat.ne_of_gt nextNonzero)]
  rfl

/-- The bits after a block was unlinked. -/
theorem marked_unlinked (rep : Rep pools control pieces lists loose)
    (listed : node ∈ lists index) (isIndexed : Indexed index) :
    Marked (control.unlinked node index).flBitmap (control.unlinked node index).slBitmap
      (Function.update lists index ((lists index).erase node)) := by
  have seg := rep.segregated
  have nonempty : lists index ≠ [] := List.ne_nil_of_mem listed
  -- a neighbour of the block stays in the list
  have stays : ∀ {other}, other ∈ lists index → other ≠ node → (lists index).erase node ≠ [] :=
    fun isListed different => List.ne_nil_of_mem ((List.mem_erase_of_ne different).mpr isListed)
  have nextNe := (seg.linked index).next_ne (seg.nodup index) (seg.noNull index) listed
  have prevNe := (seg.linked index).prev_ne (seg.nodup index) (seg.noNull index) listed
  have isFirst := (seg.linked index).prev_eq_before_iff (seg.nodup index) (seg.noNull index) listed
  rw [← seg.head] at isFirst
  unfold unlinked
  dsimp only
  split
  · next isHead =>
      have isHead : control.blocks index = node := isHead
      unfold setHead
      dsimp only
      split
      · next isLast =>
          have alone := (seg.linked index).alone (seg.nodup index) (seg.noNull index)
            (seg.noNull index) listed (isFirst.mpr isHead) isLast
          rw [alone, List.erase_cons_head]
          exact rep.marked.clear isIndexed.2
      · next notLast =>
          have isListed := (seg.next_mem listed).resolve_left notLast
          exact rep.marked.update (iff_of_false (stays isListed nextNe) nonempty)
  · next notHead =>
      have notNull : control.field node .prevFree ≠ control.address :=
        fun isNull => notHead (isFirst.mp isNull)
      have isListed := (seg.prev_mem listed).resolve_left notNull
      exact rep.marked.update (iff_of_false (stays isListed prevNe) nonempty)

/-- A free block leaves its list and is loose. -/
theorem rep_unlinked (rep : Rep pools control pieces lists loose) (member : piece ∈ pieces)
    (isFree : piece.free = true) (notLoose : piece.ptr ∉ loose) :
    Rep pools (control.unlinked piece.ptr (classOf piece.len)) pieces
        (Function.update lists (classOf piece.len) ((lists (classOf piece.len)).erase piece.ptr))
        (piece.ptr :: loose) ∧
      Kept (usedPieces pieces) control.memory
        (control.unlinked piece.ptr (classOf piece.len)).memory := by
  have listed : piece.ptr ∈ lists (classOf piece.len) :=
    (rep.listed _ _).mpr ⟨piece, member, rfl, isFree, notLoose, rfl⟩
  have nextNode := rep.next_node listed
  have prevNode := rep.prev_node listed
  have linksOnly := linksOnly_linkNeighbours rep.laid nextNode prevNode
  have kept := linksOnly.kept rep.laid
  refine ⟨?_, by rwa [unlinked_memory]⟩
  constructor
  · rw [unlinked_address]
    exact rep.laid
  · rw [unlinked_memory]
    exact linksOnly.tagged rep.laid rep.tagged
  · rw [unlinked_address]
    apply rep.segregated.erase listed
    · unfold unlinked
      dsimp only
      split
      · next isHead =>
          have isHead : control.blocks (classOf piece.len) = piece.ptr := isHead
          rw [if_pos isHead, setHead_blocks]
          rfl
      · next notHead =>
          have notHead : ¬ control.blocks (classOf piece.len) = piece.ptr := notHead
          rw [if_neg notHead]
          rfl
    · intro other node isListed _
      rw [field_unlinked]
      exact nextFree_linkNeighbours rep.laid nextNode prevNode (rep.listed_node isListed)
    · intro other node isListed _
      rw [field_unlinked]
      exact prevFree_linkNeighbours rep.laid nextNode prevNode (rep.listed_node isListed)
  · exact marked_unlinked rep listed (rep.indexed member).1
  · intro index node
    rw [List.mem_cons, not_or]
    by_cases same : index = classOf piece.len
    · subst same
      rw [Function.update_self, (rep.segregated.nodup _).mem_erase_iff, rep.listed]
      constructor
      · rintro ⟨different, other, isPiece, isPtr, otherFree, otherLoose, sameClass⟩
        exact ⟨other, isPiece, isPtr, otherFree, ⟨different, otherLoose⟩, sameClass⟩
      · rintro ⟨other, isPiece, isPtr, otherFree, ⟨different, otherLoose⟩, sameClass⟩
        exact ⟨different, other, isPiece, isPtr, otherFree, otherLoose, sameClass⟩
    · rw [Function.update_of_ne same, rep.listed]
      constructor
      · rintro ⟨other, isPiece, isPtr, otherFree, otherLoose, sameClass⟩
        refine ⟨other, isPiece, isPtr, otherFree, ⟨?_, otherLoose⟩, sameClass⟩
        intro isNode
        have isSame := rep.laid.ptr_inj isPiece member (isPtr.trans isNode)
        exact same (by rw [← sameClass, isSame])
      · rintro ⟨other, isPiece, isPtr, otherFree, ⟨_, otherLoose⟩, sameClass⟩
        exact ⟨other, isPiece, isPtr, otherFree, otherLoose, sameClass⟩

theorem blockRemove_spec (rep : Rep pools control pieces lists loose) (member : piece ∈ pieces)
    (isFree : piece.free = true) (notLoose : piece.ptr ∉ loose) :
    ∃ new newLists, control.blockRemove piece.ptr = some new ∧
      Rep pools new pieces newLists (piece.ptr :: loose) ∧
      Kept (usedPieces pieces) control.memory new.memory := by
  obtain ⟨isIndexed, isIndex⟩ := rep.indexed member
  have listed : piece.ptr ∈ lists (classOf piece.len) :=
    (rep.listed _ _).mpr ⟨piece, member, rfl, isFree, notLoose, rfl⟩
  obtain ⟨newRep, kept⟩ := rep_unlinked rep member isFree notLoose
  refine ⟨_, _, ?_, newRep, kept⟩
  unfold blockRemove
  rw [rep.blockSize member, isIndex]
  exact removeFreeBlock_eq rep listed isIndexed

/-! ## Inserting -/

/-- A loose block becomes the first one of its class. -/
theorem blockInsert_spec (rep : Rep pools control pieces lists (piece.ptr :: loose))
    (member : piece ∈ pieces) (isFree : piece.free = true) (notLoose : piece.ptr ∉ loose) :
    ∃ new newLists, control.blockInsert piece.ptr = some new ∧
      Rep pools new pieces newLists loose ∧
      Kept (usedPieces pieces) control.memory new.memory := by
  obtain ⟨isIndexed, isIndex⟩ := rep.indexed member
  have blockNode : IsNode control.address pieces piece.ptr := .inr ⟨piece, member, isFree, rfl⟩
  have currentNode := rep.head_node (classOf piece.len)
  obtain ⟨aligned, blockNonzero, _⟩ := rep.laid.node_bounds blockNode
  obtain ⟨_, currentNonzero, _⟩ := rep.laid.node_bounds currentNode
  have fits := (rep.laid.piece_bounds member).2.2.2.2.1
  have least := rep.laid.free_len member isFree
  have notListed : ∀ other, piece.ptr ∉ lists other := by
    intro other isListed
    obtain ⟨_, _, _, _, otherLoose, _⟩ := (rep.listed other _).mp isListed
    exact otherLoose List.mem_cons_self
  have notNull : piece.ptr ≠ control.address := by
    have apart := rep.laid.null_apart member
    omega
  have notCurrent : piece.ptr ≠ control.blocks (classOf piece.len) := by
    intro same
    by_cases isEmpty : lists (classOf piece.len) = []
    · exact notNull (same.trans (rep.segregated.head_eq_null_iff.mpr isEmpty))
    · exact notListed _ (same ▸ rep.segregated.head_mem isEmpty)
  have linksOnly := linksOnly_linkFirst rep.laid blockNode currentNode
  have toPtr : blockToPtr piece.ptr = alignPtr (blockToPtr piece.ptr) (alignSize .bits64) := by
    rw [alignSize_bits64, blockToPtr_eq, alignPtr_eq (by omega) (by omega)]
  refine ⟨{ control.linkFirst piece.ptr (control.blocks (classOf piece.len)) with
      blocks := Function.update control.blocks (classOf piece.len) piece.ptr
      flBitmap := setBit control.flBitmap (classOf piece.len).1
      slBitmap := Function.update control.slBitmap (classOf piece.len).1
        (setBit (control.slBitmap (classOf piece.len).1) (classOf piece.len).2) },
    Function.update lists (classOf piece.len) (piece.ptr :: lists (classOf piece.len)), ?_, ?_,
    linksOnly.kept rep.laid⟩
  · unfold blockInsert
    rw [rep.blockSize member, isIndex, some_bind]
    unfold insertFreeBlock
    rw [guard_bind isIndexed]
    dsimp only
    rw [guard_bind (Nat.ne_of_gt currentNonzero), guard_bind (Nat.ne_of_gt blockNonzero),
      guard_bind toPtr]
    rfl
  · constructor
    · exact rep.laid
    · exact linksOnly.tagged rep.laid rep.tagged
    · apply rep.segregated.push notListed notNull
      · exact (nextFree_linkFirst rep.laid blockNode currentNode blockNode).trans (if_pos rfl)
      · refine (prevFree_linkFirst rep.laid blockNode currentNode blockNode).trans ?_
        rw [if_neg notCurrent, if_pos rfl]
      · intro other node isListed
        have notBlock : node ≠ piece.ptr := fun same => notListed other (same ▸ isListed)
        exact (nextFree_linkFirst rep.laid blockNode currentNode (rep.listed_node isListed)).trans
          (if_neg notBlock)
      · intro other node isListed
        have notBlock : node ≠ piece.ptr := fun same => notListed other (same ▸ isListed)
        refine (prevFree_linkFirst rep.laid blockNode currentNode (rep.listed_node isListed)).trans ?_
        rw [if_neg notBlock]
    · exact rep.marked.set (isIndexed.1.trans (by decide)) isIndexed.2 (List.cons_ne_nil _ _)
    · intro index node
      by_cases same : index = classOf piece.len
      · subst same
        rw [Function.update_self, List.mem_cons, rep.listed]
        constructor
        · rintro (isNode | ⟨other, isPiece, isPtr, otherFree, otherLoose, sameClass⟩)
          · exact ⟨piece, member, isNode.symm, isFree, isNode ▸ notLoose, rfl⟩
          · exact ⟨other, isPiece, isPtr, otherFree,
              fun isLoose => otherLoose (List.mem_cons_of_mem _ isLoose), sameClass⟩
        · rintro ⟨other, isPiece, isPtr, otherFree, otherLoose, sameClass⟩
          by_cases isNode : node = piece.ptr
          · exact .inl isNode
          · refine .inr ⟨other, isPiece, isPtr, otherFree, ?_, sameClass⟩
            rw [List.mem_cons, not_or]
            exact ⟨isNode, otherLoose⟩
      · rw [Function.update_of_ne same, rep.listed]
        constructor
        · rintro ⟨other, isPiece, isPtr, otherFree, otherLoose, sameClass⟩
          exact ⟨other, isPiece, isPtr, otherFree,
            fun isLoose => otherLoose (List.mem_cons_of_mem _ isLoose), sameClass⟩
        · rintro ⟨other, isPiece, isPtr, otherFree, otherLoose, sameClass⟩
          refine ⟨other, isPiece, isPtr, otherFree, ?_, sameClass⟩
          rw [List.mem_cons, not_or]
          refine ⟨?_, otherLoose⟩
          intro isNode
          have isSame := rep.laid.ptr_inj isPiece member (isPtr.trans isNode)
          exact same (by rw [← sameClass, isSame])

end Control

end MallocSurvey.Tlsf
