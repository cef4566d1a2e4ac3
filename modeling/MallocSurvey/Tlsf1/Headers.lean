import MallocSurvey.Tlsf1.Inlined

/-! # The headers of a run

Forwards the headers are found by their lengths, backwards by `prevblk`. A split asks for
the block after the new one before the new one has its length. -/

namespace MallocSurvey.Tlsf1.Inlined

open Library

/-- The headers and their blocks follow each other without holes. -/
def HeadersTile (tlsf : Tlsf) : Nat → List Nat → Nat → Prop
  | start, [], stop => start = stop
  | start, blk :: rest, stop =>
      blk = start ∧ HeadersTile tlsf (start + (blkHdrLen + tlsf.blockLength blk)) rest stop

/-- What the headers say about a space. -/
structure Consistent (baseptr space : Nat) (state : State) (blks : List Nat) : Prop where
  tiles : HeadersTile state.tlsf baseptr blks (baseptr + space)
  neighbours : blks.IsChain fun left right =>
    state.tlsf.getNextPhysblk left = right ∧ state.tlsf.getPrevPhysblk right = left
  first : ∀ blk ∈ blks.head?, state.tlsf.getPrevPhysblk blk = 0
  last : ∀ blk ∈ blks.getLast?, state.tlsf.getNextPhysblk blk = 0
  served : ∀ used ∈ state.live, used.1 ∈ blks ∧ state.tlsf.blockFree used.1 = false ∧
    used.2 ≤ state.tlsf.blockLength used.1
  unused : state.tlsf.unusedSpace =
    ((blks.filter state.tlsf.blockFree).map state.tlsf.blockLength).sum

/-- No call wraps around, and no split is led astray. -/
def Guided (state : State) : Event → Prop
  | .alloc size => state.tlsf.AllocDefined size ∧ StaleLeads state.tlsf size
  | .free _ | .write _ _ => True

/-- An instance over zeroed memory. -/
def emptySpace (size : Nat) : Option State :=
  (Tlsf.create (fun _ => 0) 4096 size false 0).map fun tlsf => ⟨tlsf, []⟩

theorem init_emptySpace {size : Nat} {start : State} (large : 64 ≤ size)
    (small : 4096 + size < 2 ^ 64) (isStart : emptySpace size = some start) : Init start := by
  obtain ⟨tlsf, isCreated, isState⟩ := Option.map_eq_some_iff.mp isStart
  subst isState
  exact ⟨_, 4096, size, by decide, large, small, isCreated, rfl⟩

section Consistency

variable {state next start : State} {pieces : List Piece} {lists : Nat × Nat → List Nat}
  {baseptr space : Nat} {event : Event}

theorem headersTile_of_tiles (rep : Rep state.tlsf pieces lists) {first stop : Nat}
    {part : List Piece} (within : part ⊆ pieces) (tiles : Tiles id blkHdrLen first part stop) :
    HeadersTile state.tlsf first (part.map Piece.ptr) stop := by
  induction part generalizing first with
  | nil => exact tiles
  | cons piece rest induction =>
      refine ⟨tiles.1, ?_⟩
      rw [rep.blockLength (within List.mem_cons_self)]
      exact induction (fun _ member => within (List.mem_cons_of_mem _ member)) tiles.2

/-- Going forwards and then backwards leads to the same block. -/
theorem neighbours (inline : Inline baseptr space state.tlsf pieces)
    (rep : Rep state.tlsf pieces lists) :
    (pieces.map Piece.ptr).IsChain fun left right =>
      state.tlsf.getNextPhysblk left = right ∧ state.tlsf.getPrevPhysblk right = left := by
  rw [List.isChain_map, List.isChain_iff_forall_rel_of_append_cons_cons]
  intro left right before after isSplit
  subst isSplit
  have reordered : before ++ left :: right :: after = (before ++ [left]) ++ right :: after := by
    simp
  have isNext := inline.next rep
  rw [reordered] at inline
  have isPrev := inline.prev
  rw [List.getLast?_concat] at isPrev
  exact ⟨isNext, isPrev⟩

theorem consistent_of_inv (inv : Inv baseptr space state pieces lists) :
    Consistent baseptr space state (pieces.map Piece.ptr) := by
  have rep := inv.rep
  have inline := inv.inline
  refine ⟨headersTile_of_tiles rep (List.Subset.refl _) inline.tiles, neighbours inline rep,
    ?_, ?_, ?_, rep.unusedSpace_eq⟩
  · intro blk isFirst
    rw [List.head?_map, Option.mem_def, Option.map_eq_some_iff] at isFirst
    obtain ⟨piece, isPiece, isPtr⟩ := isFirst
    obtain ⟨rest, isCons⟩ := List.head?_eq_some_iff.mp isPiece
    rw [isCons] at inline
    rw [← isPtr]
    exact Inline.prev (show Inline baseptr space state.tlsf ([] ++ piece :: rest) from inline)
  · intro blk isLast
    rw [List.getLast?_map, Option.mem_def, Option.map_eq_some_iff] at isLast
    obtain ⟨piece, isPiece, isPtr⟩ := isLast
    obtain ⟨front, isConcat⟩ := List.getLast?_eq_some_iff.mp isPiece
    rw [isConcat] at inline rep
    rw [← isPtr]
    exact inline.next rep
  · intro used member
    obtain ⟨piece, isUsed, isPtr, fits⟩ := inv.handedOut.large used member
    obtain ⟨isPiece, notFree⟩ := List.mem_filter.mp isUsed
    rw [← isPtr, rep.blockFree isPiece, rep.blockLength isPiece]
    exact ⟨List.mem_map_of_mem isPiece, by simpa using notFree, fits⟩

/-- Every guided event is defined, keeps the invariant and, if it is a call, the contents
of the blocks in use. -/
theorem inv_step (inv : Inv baseptr space state pieces lists) (enabled : Enabled state event)
    (guided : Guided state event) :
    ∃ next newPieces newLists, step state event = some next ∧
      Inv baseptr space next newPieces newLists ∧
      ((∀ place value, event ≠ .write place value) → KeepsPayloads state next) := by
  cases event with
  | alloc size =>
      obtain ⟨next, newPieces, newLists, result, newInv, keeps⟩ :=
        inv_alloc inv enabled.1 guided.1 guided.2
      exact ⟨next, newPieces, newLists, result, newInv, fun _ => keeps⟩
  | free blk =>
      obtain ⟨next, newPieces, newLists, result, newInv, keeps⟩ := inv_free inv enabled
      exact ⟨next, newPieces, newLists, result, newInv, fun _ => keeps⟩
  | write place value =>
      exact ⟨_, pieces, lists, rfl, inv_write inv enabled,
        fun notWrite => absurd rfl (notWrite place value)⟩

theorem inv_leads (init : Init start) (leads : machine.Leads Guided start state) :
    ∃ pieces lists, Inv start.tlsf.baseptr start.tlsf.size state pieces lists := by
  induction leads with
  | refl => exact inv_init init
  | step _ enabled guided result induction =>
      obtain ⟨_, _, before⟩ := induction
      obtain ⟨next, newPieces, newLists, isResult, newInv, _⟩ := inv_step before enabled guided
      cases result.symm.trans isResult
      exact ⟨newPieces, newLists, newInv⟩

/-- In a run on which no split is led astray the headers are consistent, no call is
undefined, and none writes to a block that stays in use. -/
theorem headers_consistent (init : Init start) (leads : machine.Leads Guided start state) :
    (∃ blks, Consistent start.tlsf.baseptr start.tlsf.size state blks) ∧
      machine.Safe Guided state ∧
      ∀ event next, Enabled state event → Guided state event → step state event = some next →
        (∀ place value, event ≠ .write place value) → KeepsPayloads state next := by
  obtain ⟨pieces, lists, inv⟩ := inv_leads init leads
  refine ⟨⟨_, consistent_of_inv inv⟩, ?_, ?_⟩
  · intro event enabled guided
    obtain ⟨next, _, _, result, _⟩ := inv_step inv enabled guided
    exact fun undefined => Option.some_ne_none next (result.symm.trans undefined)
  · intro event next enabled guided result
    obtain ⟨other, _, _, isResult, _, keeps⟩ := inv_step inv enabled guided
    cases result.symm.trans isResult
    exact keeps

/-- A split of the last block, where the length happens to be zero. -/
theorem headers_consistent_once : ∃ start state, Init start ∧
    step start (.alloc 32) = some state ∧
    (∃ blks, Consistent start.tlsf.baseptr start.tlsf.size state blks) ∧
    machine.Safe Guided state ∧
    ∀ event next, Enabled state event → Guided state event → step state event = some next →
      (∀ place value, event ≠ .write place value) → KeepsPayloads state next := by
  have isGuided : (emptySpace 128).map (fun state => decide (target 32 < 2 ^ 63 ∧
      StaleLeads state.tlsf 32)) = some true := by
    decide +kernel
  obtain ⟨start, isStart, guided⟩ := Option.map_eq_some_iff.mp isGuided
  obtain ⟨small, stale⟩ := of_decide_eq_true guided
  have init := init_emptySpace (by decide) (by decide) isStart
  have isEnabled : machine.Enabled start (.alloc 32) := ⟨by decide, by decide⟩
  have isGuided : Guided start (.alloc 32) := ⟨⟨by omega, .inl small⟩, stale⟩
  obtain ⟨pieces, lists, inv⟩ := inv_init init
  obtain ⟨state, _, _, result, _⟩ := @inv_step _ _ _ _ _ (.alloc 32) inv isEnabled isGuided
  exact ⟨start, state, init, result,
    headers_consistent init (.step .refl isEnabled isGuided result)⟩

end Consistency

/-! ## A split that is led astray

A block of 96 bytes before a block in use is freed and split. Where the new header is, its
length is zero. -/

section Astray

def strayEvents : List Event := [.alloc 96, .alloc 32, .free 4096, .alloc 32]

/-- The third header does not know the second one. -/
def Strays (start state : State) : Bool :=
  start.tlsf.baseptr = 4096 ∧ start.tlsf.size = 512 ∧ state.tlsf.blockLength 4096 = 32 ∧
    state.tlsf.blockLength 4144 = 48 ∧ state.tlsf.getPrevPhysblk 4208 = 4096

theorem strays_after_run :
    ((emptySpace 512).bind fun start => (machine.run start strayEvents).map (Strays start)) =
      some true := by
  decide +kernel

theorem not_consistent {start state : State} (strays : Strays start state = true)
    (blks : List Nat) :
    ¬ Consistent start.tlsf.baseptr start.tlsf.size state blks := by
  intro consistent
  simp only [Strays, decide_eq_true_eq] at strays
  obtain ⟨base, whole, firstLength, secondLength, prevblk⟩ := strays
  rw [base, whole] at consistent
  obtain ⟨tiles, neighbours, _⟩ := consistent
  cases blks with
  | nil => exact absurd (show 4096 = 4096 + 512 from tiles) (by decide)
  | cons first rest =>
      obtain ⟨isFirst, tiles⟩ := tiles
      rw [isFirst, firstLength] at tiles
      cases rest with
      | nil => exact absurd (show 4144 = 4096 + 512 from tiles) (by decide)
      | cons second rest =>
          obtain ⟨isSecond, tiles⟩ := tiles
          have secondPtr : second = 4144 := isSecond
          rw [secondPtr, secondLength] at tiles
          cases rest with
          | nil => exact absurd (show 4208 = 4096 + 512 from tiles) (by decide)
          | cons third rest =>
              have thirdPtr : third = 4208 := tiles.1
              have isPrev := (List.isChain_cons_cons.mp (List.isChain_cons_cons.mp
                neighbours).2).1.2
              rw [thirdPtr, secondPtr, prevblk] at isPrev
              exact absurd isPrev (by decide)

theorem headers_stray : ¬ ∀ start state, Init start →
    machine.Leads (fun _ _ => True) start state →
    ∃ blks, Consistent start.tlsf.baseptr start.tlsf.size state blks := by
  intro allConsistent
  obtain ⟨start, isStart, result⟩ := Option.bind_eq_some_iff.mp strays_after_run
  obtain ⟨state, isRun, strays⟩ := Option.map_eq_some_iff.mp result
  have init := init_emptySpace (by decide) (by decide) isStart
  obtain ⟨blks, consistent⟩ := allConsistent start state init (Machine.leads_of_run isRun)
  exact not_consistent strays blks consistent

end Astray

end MallocSurvey.Tlsf1.Inlined
