import MallocSurvey.DumbTlsf.Rounds

/-! # When the second round uses no more memory -/

namespace MallocSurvey.DumbTlsf

open Library

/-! ## The second round -/

/-- The invariants with some blocks in use. -/
def Loose (state : State) (chunks : List Extent) : Prop :=
  ∃ live, Inv state.heap live state.free ∧
    Counted state.heap (pieces state.heap live state.free) chunks

theorem Loose.usedMemory {state : State} {chunks : List Extent} (loose : Loose state chunks) :
    UsedMemory state.heap (usedOf state.heap chunks) := by
  obtain ⟨live, inv, counted⟩ := loose
  exact ⟨_, counted.dusedMemory_eq inv.tail inv.region⟩

theorem Loose.allocate {state next : State} {chunks : List Extent} (loose : Loose state chunks)
    {size answer : Nat} (sizeLt : size + sizeofSize < 2 ^ 64)
    (enabled : Enabled state (.dsalloc size answer))
    (result : step state (.dsalloc size answer) = some next) :
    ∃ nextChunks, Loose next nextChunks ∧
      Served state.heap state.free chunks (size + sizeofSize) next.heap next.free nextChunks := by
  obtain ⟨live, inv, counted⟩ := loose
  have answers := enabled.2
  rw [Nat.mod_eq_of_lt sizeLt] at answers
  cases call : dsalloc state.heap size answer with
  | none => simp [step, call] at result
  | some pair =>
      obtain ⟨p, heap⟩ := pair
      simp only [step, call, Option.bind_eq_bind, Option.bind_some] at result
      cases result
      obtain ⟨_, nextFree, nextChunks, served, nextInv, nextCounted⟩ :=
        dsalloc_serving inv counted sizeLt answers call
      rw [Nat.mod_eq_of_lt sizeLt]
      have sameFree : (state.allocated heap (p - sizeofSize) (size + sizeofSize) size true).free =
          nextFree := by
        unfold State.allocated State.reused
        cases served with
        | malloc large _ =>
            dsimp only
            rw [if_pos large]
        | reused small found _ =>
            have isClass := (firstOf_mem found).2
            unfold classOf at found isClass ⊢
            dsimp only
            rw [if_neg (Nat.not_lt.mpr small), found]
            dsimp only
            rw [isClass]
        | carved small missing _ =>
            unfold classOf at missing
            dsimp only
            rw [if_neg (Nat.not_lt.mpr small), missing]
      subst sameFree
      exact ⟨nextChunks, ⟨_, nextInv, nextCounted⟩, served⟩

theorem requested_cons (size : Nat) (sizes : List Nat) (index : Nat) :
    requested (size :: sizes) index =
      requested sizes index +
        if size + sizeofSize ≤ maxSize ∧ classOf (size + sizeofSize) = index then 1 else 0 := by
  unfold requested
  rw [List.countP_cons]
  simp only [Bool.and_eq_true, decide_eq_true_eq]

theorem freedOn_dropFirst {free : List (FreeBlock Nat)} {index : Nat} {block : FreeBlock Nat}
    (found : firstOf index free = some block) (other : Nat) :
    freedOn free other = freedOn (dropFirst index free) other + if index = other then 1 else 0 := by
  unfold freedOn
  rw [(dropFirst_perm found).countP_eq, List.countP_cons, (firstOf_mem found).2]
  simp only [decide_eq_true_eq]

theorem freedOn_missing {free : List (FreeBlock Nat)} {index : Nat}
    (missing : firstOf index free = none) : freedOn free index = 0 := by
  unfold freedOn
  apply List.countP_eq_zero.mpr
  exact List.find?_eq_none.mp missing

/-- A round uses no memory just when the lists have enough blocks, and never gives any
back. -/
theorem allocations_used {calls : List (Nat × Nat)} {state next : State}
    {chunks : List Extent} (loose : Loose state chunks)
    (sizeLt : ∀ size ∈ sizesOf calls, size + sizeofSize < 2 ^ 64)
    (runs : machine.Runs anyCall state (allocations calls) next) :
    ∃ nextChunks, Loose next nextChunks ∧
      usedOf state.heap chunks ≤ usedOf next.heap nextChunks ∧
      (usedOf next.heap nextChunks = usedOf state.heap chunks ↔
        ∀ index, requested (sizesOf calls) index ≤ freedOn state.free index) := by
  induction calls generalizing state chunks with
  | nil =>
      cases runs
      exact ⟨chunks, loose, Nat.le_refl _, fun _ _ => Nat.zero_le _, fun _ => rfl⟩
  | cons call rest induction =>
      obtain ⟨size, answer⟩ := call
      cases runs with
      | @cons _ middle _ _ _ enabled _ result runs =>
          obtain ⟨middleChunks, middleLoose, served⟩ :=
            loose.allocate (sizeLt size List.mem_cons_self) enabled result
          obtain ⟨nextChunks, nextLoose, grows, exact_⟩ := induction middleLoose
            (fun other member => sizeLt other (List.mem_cons_of_mem _ member)) runs
          generalize middle.free = middleFree at served exact_
          refine ⟨nextChunks, nextLoose, ?_, ?_⟩
          · cases served with
            | malloc _ same => omega
            | reused _ _ same => omega
            | carved _ _ more => omega
          · change _ ↔ ∀ index, requested (size :: sizesOf rest) index ≤ _
            simp only [requested_cons]
            cases served with
            | malloc large same =>
                rw [← same, exact_]
                have noRequest : ¬ size + sizeofSize ≤ maxSize := Nat.not_le_of_lt large
                simp only [noRequest, false_and, if_false, Nat.add_zero]
            | @reused block small found same =>
                rw [← same, exact_]
                simp only [small, true_and, freedOn_dropFirst found, Nat.add_le_add_iff_right]
            | carved small missing more =>
                constructor
                · intro same
                  omega
                · intro enough
                  have atClass := enough (classOf (size + sizeofSize))
                  rw [freedOn_missing missing, if_pos ⟨small, rfl⟩] at atClass
                  omega

/-! ## Both rounds -/

theorem returned_perm {left right : List Nat} (perm : left.Perm right) (index : Nat) :
    returned left index = returned right index :=
  perm.countP_eq _

theorem dreservedMemory_unique {heap : Heap} {first second blk total left right : Nat}
    (leftResult : dreservedMemory heap first blk total = some left)
    (rightResult : dreservedMemory heap second blk total = some right) : left = right := by
  induction first generalizing second blk total with
  | zero => cases leftResult
  | succ first induction =>
      cases second with
      | zero => cases rightResult
      | succ second =>
          unfold dreservedMemory at leftResult rightResult
          split at leftResult
          · next isNull =>
              rw [if_pos isNull] at rightResult
              exact Option.some.inj (leftResult.symm.trans rightResult)
          · next notNull =>
              rw [if_neg notNull] at rightResult
              exact induction leftResult rightResult

theorem UsedMemory.unique {heap : Heap} {left right : Nat} (isLeft : UsedMemory heap left)
    (isRight : UsedMemory heap right) : left = right := by
  obtain ⟨first, leftResult⟩ := isLeft
  obtain ⟨second, rightResult⟩ := isRight
  unfold dusedMemory at leftResult rightResult
  cases leftTotal : dreservedMemory heap first heap.res 0 with
  | none => simp [leftTotal] at leftResult
  | some total =>
      cases rightTotal : dreservedMemory heap second heap.res 0 with
      | none => simp [rightTotal] at rightResult
      | some other =>
          rw [leftTotal] at leftResult
          rw [rightTotal, ← dreservedMemory_unique leftTotal rightTotal] at rightResult
          exact Option.some.inj (leftResult.symm.trans rightResult)

end MallocSurvey.DumbTlsf
