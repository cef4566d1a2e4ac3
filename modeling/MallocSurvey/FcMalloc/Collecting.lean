import MallocSurvey.FcMalloc.HandingOut

/-! # The garbage collector keeps the blocks -/

namespace MallocSurvey.FcMalloc.Malloc2

open Library

variable {system next : System} {live : List Block} {current : List Nat} {c : Nat}

theorem seekEmpty_some {ring : Nat → Nat} {fuel p found : Nat}
    (result : System.seekEmpty ring fuel p = some found) : ring (found % recycleSlots) = 0 := by
  induction fuel generalizing p with
  | zero => cases result
  | succ fuel induction =>
      unfold System.seekEmpty at result
      split at result
      · exact induction result
      · next isEmpty =>
          cases result
          exact not_not.mp isEmpty

theorem seekEmpty_none {ring : Nat → Nat} {fuel p : Nat}
    (result : System.seekEmpty ring fuel p = none) {position : Nat} (above : p ≤ position)
    (below : position < p + fuel) : ring (position % recycleSlots) ≠ 0 := by
  induction fuel generalizing p with
  | zero => omega
  | succ fuel induction =>
      unfold System.seekEmpty at result
      split at result
      · next taken =>
          by_cases same : position = p
          · exact same ▸ taken
          · exact induction result (by omega) (by omega)
      · cases result

/-- The search fails just when the whole ring is taken. -/
theorem full_of_seekEmpty {ring : Nat → Nat} {p : Nat}
    (result : System.seekEmpty ring recycleSlots p = none) {slot : Nat}
    (inRing : slot < recycleSlots) : ring slot ≠ 0 := by
  obtain ⟨position, above, below, isSlot⟩ : ∃ position, p ≤ position ∧
      position < p + recycleSlots ∧ position % recycleSlots = slot := by
    unfold recycleSlots at *
    by_cases behind : p % 262144 ≤ slot
    · exact ⟨p + (slot - p % 262144), by omega, by omega, by omega⟩
    · exact ⟨p + (slot + 262144 - p % 262144), by omega, by omega, by omega⟩
  have taken := seekEmpty_none result above below
  rwa [isSlot] at taken

/-- The block that the garbage collector reads next. -/
theorem Inv.reads (inv : Inv system live current) {p e : Nat}
    (isPass : system.collecting = some (p, e)) (more : p < e) :
    system.slots (.garbage p) = some (system.thread.garbageBin (p % garbageSlots)) ∧
      system.thread.garbageBin (p % garbageSlots) ∈ system.freed := by
  have isUnread : system.unread = p := by
    unfold System.unread
    rw [isPass]
  have isSlot : system.slots (.garbage p) =
      some (system.thread.garbageBin (p % garbageSlots)) := by
    change ringAt _ _ system.unread _ p = _
    rw [isUnread]
    apply ringAt_first
    have pass := inv.counters.pass p e isPass
    have published := inv.counters.published
    omega
  exact ⟨isSlot, (inv.placed.held_iff _).mpr ⟨_, isSlot⟩⟩

/-- A block that is read moves to its recycle bin. -/
theorem Inv.recycle (inv : Inv system live current) {p e : Nat}
    (isPass : system.collecting = some (p, e)) (more : p < e)
    (result : system.recycle (system.thread.garbageBin (p % garbageSlots)) = some next) :
    Inv { next with collecting := some (p + 1, e) } live current := by
  have isUnread : system.unread = p := by
    unfold System.unread
    rw [isPass]
  obtain ⟨isSlot, isFreed⟩ := inv.reads isPass more
  have nonzero := (inv.freed_ok isFreed).ne_zero
  generalize system.thread.garbageBin (p % garbageSlots) = c at *
  have pass := inv.counters.pass p e isPass
  unfold System.recycle at result
  dsimp only at result
  split at result
  · cases result
  rw [Option.bind_eq_bind, Option.bind_eq_some_iff] at result
  obtain ⟨found, isFound, isNext⟩ := result
  cases isNext
  have isEmpty := seekEmpty_some isFound
  have inRing : found % recycleSlots < recycleSlots := Nat.mod_lt _ (by decide)
  refine ⟨inv.layout, inv.rest, inv.enough, ?_, ?_, ?_⟩
  · have target : system.slots
        (.recycle (getBinNum (system.headerOf c).calcSize) (found % recycleSlots)) = none :=
      recycleAt_empty isEmpty
    refine (inv.placed.move isSlot target).congr ?_ fun _ => Iff.rfl
    funext place
    cases place with
    | cache bin position =>
        rw [Function.update_of_ne (by intro equal; cases equal),
          Function.update_of_ne (by intro equal; cases equal)]
        rfl
    | garbage position =>
        rw [Function.update_of_ne (by intro equal; cases equal)]
        change ringAt system.thread.garbageBin garbageSlots (p + 1)
          system.thread.gcReadEndBuffer position = _
        refine (congrFun ringAt_pop position).trans ?_
        by_cases isFirst : position = p
        · rw [isFirst, Function.update_self, Function.update_self]
        · rw [Function.update_of_ne isFirst, Function.update_of_ne]
          · change _ = ringAt _ _ system.unread _ position
            rw [isUnread]
          · intro equal
            cases equal
            exact isFirst rfl
    | recycle bin slot =>
        by_cases sameBin : bin = getBinNum (system.headerOf c).calcSize
        · change recycleAt (Function.update system.bins _ _ bin).freeBin slot = _
          rw [sameBin, Function.update_self]
          refine (congrFun (recycleAt_put _ inRing nonzero) slot).trans ?_
          by_cases isTarget : slot = found % recycleSlots
          · rw [isTarget, Function.update_self, Function.update_self]
          · rw [Function.update_of_ne isTarget, Function.update_of_ne,
              Function.update_of_ne (by intro equal; cases equal)]
            · rfl
            · intro equal
              cases equal
              exact isTarget rfl
        · change recycleAt (Function.update system.bins _ _ bin).freeBin slot = _
          rw [Function.update_of_ne sameBin, Function.update_of_ne,
            Function.update_of_ne (by intro equal; cases equal)]
          · rfl
          · intro equal
            cases equal
            exact sameBin rfl
  · exact fun bin position found isCached => inv.binned bin position found isCached
  · refine ⟨inv.counters.cache, ?_, ?_, inv.counters.published, ?_⟩
    · change p + 1 ≤ system.thread.gcReadEnd
      omega
    · rintro _ _ equal
      cases equal
      exact ⟨more, pass.2⟩
    · change system.thread.gcReadEndBuffer ≤ p + 1 + garbageSlots
      have bound := inv.counters.garbage
      omega

theorem Inv.collect (inv : Inv system live current) (result : system.collect = some next) :
    Inv next live current ∧ next.thread.nextBlock = system.thread.nextBlock := by
  unfold System.collect at result
  split at result
  · next isIdle =>
      cases result
      have sameUnread : system.unread = system.thread.gcBegin := by
        unfold System.unread
        rw [isIdle]
      have sameSlots := @slots_congr system ⟨system.header, system.thread, system.bins,
        some (system.thread.gcBegin, system.thread.gcReadEnd), system.pages, system.freed⟩
        rfl rfl rfl sameUnread.symm rfl
      refine ⟨⟨inv.layout, inv.rest, inv.enough, inv.placed.congr sameSlots fun _ => Iff.rfl, ?_,
        inv.counters.cache, ?_, ?_, inv.counters.published, ?_⟩, rfl⟩
      · exact fun bin position c isCached => inv.binned bin position c isCached
      · exact sameUnread ▸ inv.counters.unread
      · rintro _ _ equal
        cases equal
        exact ⟨sameUnread ▸ inv.counters.unread, Nat.le_refl _⟩
      · exact sameUnread ▸ inv.counters.garbage
  · next p e isPass =>
      have pass := inv.counters.pass p e isPass
      have isUnread : system.unread = p := by
        unfold System.unread
        rw [isPass]
      split at result
      · next more =>
          rw [Option.bind_eq_bind, Option.bind_eq_some_iff] at result
          obtain ⟨recycled, isRecycled, isNext⟩ := result
          cases isNext
          refine ⟨inv.recycle isPass more isRecycled, ?_⟩
          unfold System.recycle at isRecycled
          dsimp only at isRecycled
          split at isRecycled
          · cases isRecycled
          rw [Option.bind_eq_bind, Option.bind_eq_some_iff] at isRecycled
          obtain ⟨_, _, isNext⟩ := isRecycled
          cases isNext
          rfl
      · next done =>
          cases result
          have atEnd : e = p := by omega
          have sameSlots := @slots_congr system ⟨system.header,
            { system.thread with gcBegin := e }, system.bins, none, system.pages, system.freed⟩
            rfl rfl rfl (atEnd.trans isUnread.symm) rfl
          refine ⟨⟨inv.layout, inv.rest, inv.enough, inv.placed.congr sameSlots fun _ => Iff.rfl,
            ?_, inv.counters.cache, pass.2, ?_, inv.counters.published, ?_⟩, rfl⟩
          · exact fun bin position c isCached => inv.binned bin position c isCached
          · rintro _ _ equal
            cases equal
          · have bound := inv.counters.garbage
            rw [isUnread, ← atEnd] at bound
            exact bound

/-- The garbage collector is stuck just when a recycle bin is full. -/
theorem Inv.collect_none (inv : Inv system live current) (result : system.collect = none) :
    ∃ bin, ∀ slot < recycleSlots, (system.bins bin).freeBin slot ≠ 0 := by
  unfold System.collect at result
  split at result
  · cases result
  · next p e isPass =>
      split at result
      · next more =>
          have ok := inv.freed_ok (inv.reads isPass more).2
          rw [Option.bind_eq_bind, Option.bind_eq_none_iff] at result
          generalize system.thread.garbageBin (p % garbageSlots) = c at *
          have stuck : system.recycle c = none := by
            cases isRecycled : system.recycle c with
            | none => rfl
            | some recycled => cases result recycled isRecycled
          unfold System.recycle at stuck
          dsimp only at stuck
          have asserted : ¬ ((system.headerOf c).calcSize = 0 ∨
              binCount ≤ getBinNum (system.headerOf c).calcSize) := by
            rintro (empty | above)
            · exact Nat.ne_of_gt ok.calcSize_bounds.1 empty
            · exact Nat.not_lt_of_le above ok.binNum_lt
          rw [if_neg asserted, Option.bind_eq_bind, Option.bind_eq_none_iff] at stuck
          refine ⟨getBinNum (system.headerOf c).calcSize, fun slot inRing => ?_⟩
          generalize system.bins (getBinNum (system.headerOf c).calcSize) = bin at *
          cases isFound : System.seekEmpty bin.freeBin recycleSlots bin.nextWrite with
          | none => exact full_of_seekEmpty isFound inRing
          | some found => cases stuck found isFound
      · cases result

end MallocSurvey.FcMalloc.Malloc2
