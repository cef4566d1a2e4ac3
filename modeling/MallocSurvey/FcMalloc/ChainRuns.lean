import MallocSurvey.FcMalloc.ChainKept

/-! # Runs on a page -/

namespace MallocSurvey.FcMalloc.Malloc3

open Library

variable {page next : Page} {block s : Nat} {sizes : List Nat} {event : Event}

theorem Laid.mergeNext (laid : Laid page sizes) (member : block ∈ page.blocks) :
    ((page.header block).flags ≠ idle ∧ page.mergeNext block = none) ∨
      ∃ next sizes, page.mergeNext block = some next ∧ Laid next sizes := by
  by_cases isIdle : (page.header block).flags = idle
  · refine .inr ?_
    have asserted : assert ((page.header block).flags = idle) = some () := if_pos isIdle
    obtain ⟨first, size, second, split, place, _, told, _⟩ := laid.at_block member
    simp only [Page.mergeNext, asserted, laid.assertPage_eq member, Option.bind_eq_bind,
      Option.bind_some]
    cases second with
    | nil =>
        have isLast : page.next block = none := told.next_of_last
        rw [isLast]
        exact ⟨page, sizes, rfl, laid⟩
    | cons nextSize second =>
        have isNext : page.next block = some (block + (sizeofHeader + size)) :=
          told.next_of_inner
        rw [isNext]
        simp only [laid.assertPage_eq (laid.next_mem member isNext), Option.bind_some]
        by_cases nextIdle : (page.header (block + (sizeofHeader + size))).flags = idle
        · rw [if_neg (fun other => other nextIdle)]
          subst split
          have place' : block = (page.unlink (block + (sizeofHeader + size))).limit +
              span sizeofHeader first := by
            rw [limit_unlink]
            exact place
          have merged := (laid.unlink (block + (sizeofHeader + size))).merged place'
          have sameLimit : ((page.unlink (block + (sizeofHeader + size))).merged block
              (block + (sizeofHeader + size))).limit = page.limit :=
            (limit_merged ..).trans (limit_unlink _)
          have stays := merged.mem_blocks
          rw [sameLimit, ← place] at stays
          rw [merged.assertPage_eq stays, Option.bind_some,
            merged.assertPageOf_eq (fun _ => merged.next_mem stays), Option.bind_some,
            merged.assertPageOf_eq (fun _ => merged.prev_mem stays), Option.bind_some]
          exact ⟨_, _, rfl, merged⟩
        · rw [if_pos nextIdle]
          exact ⟨page, sizes, rfl, laid⟩
  · have asserted : assert ((page.header block).flags = idle) = none := if_neg isIdle
    refine .inl ⟨isIdle, ?_⟩
    simp only [Page.mergeNext, asserted, laid.assertPage_eq member, Option.bind_eq_bind,
      Option.bind_some, Option.bind_none]

theorem Laid.setFlags (laid : Laid page sizes) (block : Nat) (flags : Int) :
    Laid (page.setFlags block flags) sizes := by
  have sameSizes : ∀ other, ((page.setFlags block flags).header other).prevSize =
      (page.header other).prevSize ∧
        ((page.setFlags block flags).header other).size = (page.header other).size := by
    intro other
    unfold Page.setFlags
    by_cases same : other = block
    · rw [same, header_setHeader_self]
      exact ⟨rfl, rfl⟩
    · rw [header_setHeader_of_ne same]
      exact ⟨rfl, rfl⟩
  refine laid.of_sizes ?_ (fun other _ => (sameSizes other).1) (fun other _ => (sameSizes other).2)
  rfl

theorem Laid.mergePrev (laid : Laid page sizes) (member : block ∈ page.blocks) :
    ∃ whole next sizes, page.mergePrev block = some (whole, next) ∧ Laid next sizes := by
  have marked := laid.setFlags block idle
  rw [laid.blocks_eq] at member
  change block ∈ starts sizeofHeader (page.setFlags block idle).limit sizes at member
  rw [← marked.blocks_eq] at member
  unfold Page.mergePrev
  dsimp only
  cases isPrev : (page.setFlags block idle).prev block with
  | none => exact ⟨_, _, _, rfl, marked⟩
  | some p =>
      dsimp only
      by_cases isIdle : ((page.setFlags block idle).header p).flags = idle
      · rw [if_neg (fun other => other isIdle)]
        rcases marked.mergeNext (marked.prev_mem member isPrev) with ⟨notIdle, _⟩ | merged
        · exact absurd isIdle notIdle
        · obtain ⟨next, sizes, call, whole⟩ := merged
          rw [call]
          exact ⟨p, next, sizes, rfl, whole⟩
      · rw [if_pos isIdle]
        exact ⟨_, _, _, rfl, marked⟩

/-- Where a block is split, it is the last one of the page. -/
def Fits (page : Page) : Event → Prop
  | .splitAfter block s => page.size block < s + 40 ∨ page.next block = none
  | _ => True

/-- The assertions about the arguments. -/
def Refused (page : Page) : Event → Prop
  | .splitAfter _ s => s < 32
  | .mergeNext block => (page.header block).flags ≠ idle
  | _ => False

/-- The other assertions hold, and the headers stay those of a row. -/
theorem step_laid (laid : Laid page sizes) (enabled : Enabled page event)
    (fits : Fits page event) :
    (Refused page event ∧ step page event = none) ∨
      ∃ next sizes, step page event = some next ∧ Laid next sizes := by
  cases event with
  | splitAfter block s =>
      rcases laid.splitAfter enabled fits with ⟨refused, call⟩ | ⟨_, next, sizes, call, after⟩
      · exact .inl ⟨refused, by simp [step, call]⟩
      · exact .inr ⟨next, sizes, by simp [step, call], after⟩
  | mergeNext block => exact laid.mergeNext enabled
  | mergePrev block =>
      obtain ⟨_, next, sizes, call, after⟩ := laid.mergePrev enabled
      exact .inr ⟨next, sizes, by simp [step, call], after⟩
  | setState block flags => exact .inr ⟨_, _, rfl, laid.setFlags block flags⟩
  | setNode block node =>
      exact .inr ⟨_, _, rfl, laid.of_sizes rfl (fun _ _ => rfl) (fun _ _ => rfl)⟩
  | write address left =>
      have same : ∀ block ∈ page.blocks,
          (page.setHeader address left).header block = page.header block := by
        intro block member
        apply header_setHeader_of_ne
        rintro rfl
        exact enabled member
      refine .inr ⟨_, sizes, rfl, laid.of_sizes rfl ?_ ?_⟩
      · exact fun block member => by rw [same block member]
      · exact fun block member => by rw [same block member]

/-- A block that has a neighbour after it is split. -/
theorem step_broken (laid : Laid page sizes) (enabled : Enabled page event)
    (split : ¬ Fits page event) (result : step page event = some next) : ¬ Consistent next := by
  cases event with
  | splitAfter block s =>
      have big : s + 40 ≤ page.size block := by
        by_contra small
        exact split (.inl (by omega))
      have inner : page.next block ≠ none := fun isLast => split (.inr isLast)
      rcases splitAfter_cases (s := s) (laid.assertPage_eq enabled) with refused | small | cut
      · simp [step, refused.2] at result
      · omega
      · have broken := laid.cut_broken enabled cut.1 big inner
        simp only [step, cut.2.2, Option.map_eq_some_iff, Option.bind_eq_bind,
          Option.bind_eq_some_iff] at result
        obtain ⟨_, ⟨_, _, _, _, _, _, call⟩, isNext⟩ := result
        cases call
        cases isNext
        exact broken
  | _ => exact absurd trivial split

/-- The page at 65536. -/
def start : Page where
  limit := 65536
  header := fun address => if address = 65536 then ⟨0, -(pageSizeMax - 8), 0⟩ else ⟨0, 0, 0⟩
  node := fun _ => ⟨none, none⟩

theorem start_reachable {allowed : Page → Event → Prop} : machine.Reachable allowed start :=
  .init ⟨by decide, rfl, rfl⟩

end MallocSurvey.FcMalloc.Malloc3
