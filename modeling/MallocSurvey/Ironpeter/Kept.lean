import MallocSurvey.Ironpeter.Freeing

/-! # What the space keeps over every run -/

namespace MallocSurvey.Ironpeter

open Library

/-- The objects of a node. -/
def objectsOf (width page : Nat) (header : NodeHeader) : List Nat :=
  run (firstObjectOf width page) (limit width (sizes header.index)) (sizes header.index)

def IsLive (state : State) (place : Nat) : Prop := place ∈ state.live.map Object.pointer

/-- The live objects are apart and have room, the link of a free object touches no other
object, the bins list just the nodes with a free object, and nodes count their live
objects. -/
structure SpaceKept (width : Nat) (state : State) : Prop where
  apart : state.live.Pairwise fun left right =>
    Apart left.pointer left.room right.pointer right.room
  large : ∀ object ∈ state.live, object.pointer ≠ 0 ∧ object.size ≤ object.room ∧
    ∃ region ∈ state.space.regions, Extent.Inside ⟨object.pointer, object.room⟩ region
  inNode : ∀ object ∈ state.live, object.size ≤ platformSize / 2 →
    ∃ header, state.space.header (Mspace.pageOf object.pointer) = some header ∧
      object.pointer ∈ objectsOf width (Mspace.pageOf object.pointer) header ∧
      object.room = sizes header.index
  links : ∀ page header, state.space.header page = some header →
    ∀ left ∈ objectsOf width page header, ¬ IsLive state left →
      left + width ≤ page + platformSize ∧
      ∀ right ∈ objectsOf width page header, right ≠ left →
        Apart left width right (sizes header.index)
  free : ∀ page header, state.space.header page = some header →
    ∃ free, header.firstObject = free.headD 0 ∧
      Linked id (fun place => loadBytes state.space.memory place width) free ∧ free.Nodup ∧
      ∀ place, place ∈ free ↔ place ∈ objectsOf width page header ∧ ¬ IsLive state place
  lists : ∀ bin, ∃ list, state.space.nodes bin = list.headD 0 ∧
    Linked id (nextOf state.space.header) list ∧ list.Nodup ∧
    ∀ page, page ∈ list ↔ ∃ header, state.space.header page = some header ∧
      header.index = bin ∧ ∃ place ∈ objectsOf width page header, ¬ IsLive state place
  counted : ∀ page header, state.space.header page = some header →
    header.usedObjs = (state.live.filter fun object =>
      Mspace.pageOf object.pointer = page).length ∧ 0 < header.usedObjs

/-- Just the nodes without live objects lose their page. -/
def ReleasesEmpty (state next : State) : Prop :=
  ∀ page header, state.space.header page = some header →
    (next.space.header page = none ↔
      next.live.filter (fun object => Mspace.pageOf object.pointer = page) = [])

/-- A link fits in an object of the size. -/
def LinksFit (width : Nat) : Event → Prop
  | .imalloc size _ => width = 4 ∨ 4 < size
  | .ifree _ | .write _ _ => True

/-- The system has no memory for the event. -/
def PlatformFails : Event → Prop
  | .imalloc _ answer => answer = 0
  | .ifree _ | .write _ _ => False

variable {width : Nat} {space : Mspace} {live : List Object} {lists : Nat → List Nat}

theorem liveOf_eq_nil_iff {page : Nat} : liveOf live page = [] ↔
    live.filter (fun object => Mspace.pageOf object.pointer = page) = [] :=
  List.map_eq_nil_iff

/-! ## What the invariant says -/

/-- Being live and being a live object of the node are the same for its objects. -/
theorem NodeInv.isLive_iff {page : Nat} {header : NodeHeader} {free : List Nat}
    (node : NodeInv width space.memory space.regions (liveOf live page) page header free)
    (isWidth : width = 4 ∨ width = 8) {place : Nat}
    (member : place ∈ objectsOf width page header) :
    IsLive ⟨space, live⟩ place ↔ place ∈ liveOf live page := by
  have bounds := run_bounds member
  have inPage := (limit_spec isWidth node.index).2
  have atLeast := sizes_ge header.index
  have isPage : Mspace.pageOf place = page := by
    have above : page ≤ place := by
      unfold firstObjectOf at bounds
      omega
    obtain ⟨offset, isOffset⟩ := Nat.exists_eq_add_of_le above
    rw [isOffset]
    apply pageOf_add node.aligned
    unfold firstObjectOf at bounds
    omega
  rw [mem_liveOf]
  constructor
  · intro isLive
    obtain ⟨object, isObject, same⟩ := List.mem_map.mp isLive
    exact ⟨object, isObject, by rw [same, isPage], same⟩
  · rintro ⟨object, isObject, _, same⟩
    exact List.mem_map.mpr ⟨object, isObject, same⟩

/-- The free objects of a node are those that are not live. -/
theorem NodeInv.mem_free_iff {page : Nat} {header : NodeHeader} {free : List Nat}
    (node : NodeInv width space.memory space.regions (liveOf live page) page header free)
    (isWidth : width = 4 ∨ width = 8) (place : Nat) :
    place ∈ free ↔ place ∈ objectsOf width page header ∧ ¬ IsLive ⟨space, live⟩ place := by
  have atLeast := sizes_ge header.index
  constructor
  · intro isFree
    have member := node.slab.mem_run (.inl isFree)
    refine ⟨member, ?_⟩
    rw [node.isLive_iff isWidth member]
    intro isLive
    exact (List.nodup_append.mp (node.slab.nodup (by omega))).2.2 place isFree place isLive rfl
  · rintro ⟨member, notLive⟩
    rw [node.isLive_iff isWidth member] at notLive
    exact (List.mem_append.mp (node.slab.blocks.mem_iff.mpr member)).resolve_right notLive

theorem Inv.live_apart (inv : Inv width space live lists []) (isWidth : width = 4 ∨ width = 8) :
    live.Pairwise fun left right => Apart left.pointer left.room right.pointer right.room := by
  have different := List.pairwise_map.mp inv.distinct
  apply different.imp_of_mem
  intro left right leftLive rightLive pointers
  by_cases samePage : Mspace.pageOf left.pointer = Mspace.pageOf right.pointer
  · rcases inv.objects left leftLive with leftLarge | leftSmall
    · rcases inv.objects right rightLive with rightLarge | rightSmall
      · rw [pageOf_self leftLarge.aligned, pageOf_self rightLarge.aligned] at samePage
        exact absurd samePage pointers
      · obtain ⟨header, isHeader, _⟩ := rightSmall.node
        rw [← samePage, pageOf_self leftLarge.aligned, leftLarge.notNode] at isHeader
        cases isHeader
    · obtain ⟨header, free, isHeader, leftRoom, node, leftMember⟩ := inv.node_at leftLive leftSmall
      have rightSmall := inv.liveOf_small rightLive isHeader samePage.symm
      obtain ⟨found, _, isFound, rightRoom, _, _⟩ := inv.node_at rightLive rightSmall
      rw [← samePage, isHeader] at isFound
      cases isFound
      have rightMember : right.pointer ∈ liveOf live (Mspace.pageOf left.pointer) :=
        mem_liveOf.mpr ⟨right, rightLive, samePage.symm, rfl⟩
      rw [← leftRoom, ← rightRoom]
      exact run_apart (node.slab.mem_run (.inr leftMember)) (node.slab.mem_run (.inr rightMember))
        pointers
  · obtain ⟨leftRegion, leftMember, leftStart, leftInside⟩ := inv.live_region isWidth leftLive
    obtain ⟨rightRegion, rightMember, rightStart, rightInside⟩ := inv.live_region isWidth rightLive
    have regions : leftRegion ≠ rightRegion := by
      rintro rfl
      exact samePage (leftStart.symm.trans rightStart)
    have mapped : (space.regions.map id).Pairwise Extent.Apart := by
      rw [List.map_id]
      exact inv.apart
    have between := (Extent.apart_of_map mapped leftMember rightMember regions).parts leftInside
      rightInside
    have roomy : ∀ object : Object, 0 < object.room := by
      intro object
      unfold Object.room
      split
      · exact Nat.mul_pos (by decide) (Nat.succ_pos _)
      · have atLeast := sizes_ge (bremap (Mspace.tableIndex object.size))
        unfold bsizes
        omega
    have leftRoom := roomy left
    have rightRoom := roomy right
    unfold Extent.Apart Apart at between
    unfold Apart
    dsimp only at between
    omega

theorem Object.size_le_room (object : Object) : object.size ≤ object.room := by
  unfold Object.room
  split
  · next large =>
      unfold platformSize at *
      omega
  · next small =>
      obtain ⟨inTable, enough⟩ := tableIndex_spec (Nat.le_of_not_lt small)
      exact Nat.le_trans enough (bremap_spec inTable).2

theorem Inv.spaceKept (inv : Inv width space live lists []) (isWidth : width = 4 ∨ width = 8)
    (populated : Populated space live) : SpaceKept width ⟨space, live⟩ where
  apart := inv.live_apart isWidth
  large := by
    intro object isLive
    obtain ⟨region, member, isStart, inside⟩ := inv.live_region isWidth isLive
    have ok := (inv.regions region member).nonzero
    have above := inside.1
    dsimp only at above
    exact ⟨by omega, object.size_le_room, region, member, inside⟩
  inNode := by
    intro object isLive small
    have isSmall : SmallOk space object := by
      rcases inv.objects object isLive with large | isSmall
      · exact absurd large.large (Nat.not_lt_of_le small)
      · exact isSmall
    obtain ⟨header, free, isHeader, isRoom, node, member⟩ := inv.node_at isLive isSmall
    exact ⟨header, isHeader, node.slab.mem_run (.inr member), isRoom.symm⟩
  links := by
    intro page header isHeader left isLeft notLive
    obtain ⟨free, node⟩ := inv.nodes page header isHeader
    have wide := node.wide
    have bounds := node.object_bounds isWidth
      (.inl ((node.mem_free_iff isWidth left).mpr ⟨isLeft, notLive⟩))
    refine ⟨by omega, ?_⟩
    intro right isRight different
    have between := run_apart isLeft isRight (Ne.symm different)
    unfold Apart at between ⊢
    omega
  free := by
    intro page header isHeader
    obtain ⟨free, node⟩ := inv.nodes page header isHeader
    have atLeast := sizes_ge header.index
    exact ⟨free, node.slab.head, node.slab.linked,
      (List.nodup_append.mp (node.slab.nodup (by omega))).1, node.mem_free_iff isWidth⟩
  lists := by
    intro bin
    refine ⟨lists bin, inv.listed.heads bin, inv.listed.linked bin, inv.listed.nodup bin, ?_⟩
    intro page
    rw [inv.listed.mem, and_iff_right List.not_mem_nil]
    apply exists_congr
    intro header
    apply and_congr_right
    intro isHeader
    apply and_congr_right
    intro _
    obtain ⟨free, node⟩ := inv.nodes page header isHeader
    rw [Ne, node.slab.head_eq_zero_iff, List.eq_nil_iff_forall_not_mem, not_forall]
    apply exists_congr
    intro place
    rw [not_not]
    exact node.mem_free_iff isWidth place
  counted := by
    intro page header isHeader
    obtain ⟨free, node⟩ := inv.nodes page header isHeader
    have counted : header.usedObjs = (live.filter fun object =>
        Mspace.pageOf object.pointer = page).length := node.count.trans (List.length_map ..)
    refine ⟨counted, ?_⟩
    rw [counted]
    apply List.length_pos_of_ne_nil
    rw [Ne, ← liveOf_eq_nil_iff]
    exact populated page header isHeader

/-! ## Every run -/

def Kept (width : Nat) (state : State) : Prop :=
  (∃ lists, Inv width state.space state.live lists []) ∧ Populated state.space state.live

theorem kept_initial (memory : Memory) : Kept width ⟨.initial memory, []⟩ := by
  refine ⟨⟨fun _ => [], ?_, ⟨fun _ => rfl, fun _ => trivial, fun _ => List.nodup_nil, ?_⟩, ?_,
    List.Pairwise.nil, ?_, List.nodup_nil⟩, ?_⟩
  · intro page header isHeader
    cases isHeader
  · intro bin page
    refine iff_of_false List.not_mem_nil ?_
    rintro ⟨_, _, impossible, _⟩
    cases impossible
  · intro region member
    cases member
  · intro object member
    cases member
  · intro page header isHeader
    cases isHeader

/-- A write to a live object leaves the links. -/
theorem Inv.write (inv : Inv width space live lists []) (isWidth : width = 4 ∨ width = 8)
    {object : Object} (isLive : object ∈ live) {place : Nat} (above : object.pointer ≤ place)
    (below : place < object.pointer + object.size) (value : UInt8) :
    Inv width { space with memory := Function.update space.memory place value } live lists [] := by
  refine ⟨?_, inv.listed, inv.regions, inv.apart, ?_, inv.distinct⟩
  · intro page header isHeader
    obtain ⟨free, node⟩ := inv.nodes page header isHeader
    have atLeast := sizes_ge header.index
    have roomy := object.size_le_room
    by_cases inPage : Mspace.pageOf object.pointer = page
    · have small := inv.liveOf_small isLive isHeader inPage
      obtain ⟨found, _, isFound, isRoom, _, member⟩ := inv.node_at isLive small
      rw [inPage] at isFound member
      rw [isHeader] at isFound
      cases isFound
      exact ⟨free, { node with
        slab := node.slab.write node.wide (by omega) member above (by omega) value }⟩
    · refine ⟨free, node.frame isWidth ?_ node.region⟩
      intro byte byteAbove byteBelow
      obtain ⟨region, member, isStart, inside⟩ := inv.live_region isWidth isLive
      have different : region ≠ ⟨page, platformSize⟩ := by
        rintro rfl
        exact inPage isStart.symm
      have mapped : (space.regions.map id).Pairwise Extent.Apart := by
        rw [List.map_id]
        exact inv.apart
      have between := (Extent.apart_of_map mapped member node.region different).inside inside
      unfold Extent.Apart Apart platformSize at between
      unfold platformSize at byteBelow
      dsimp only [id] at between
      exact Function.update_of_ne (by omega) _ _
  · intro other otherLive
    exact (inv.objects other otherLive).imp (fun large => ⟨large.large, large.aligned,
      large.notNode, large.region⟩) fun small => ⟨small.small, small.node⟩

theorem step_imalloc (state : State) (size answer : Nat) :
    step width state (.imalloc size answer) = (do
      let (result, space) ← state.space.malloc width size answer
      if result = 0 then return { state with space := space }
      else return State.mk space (⟨result, size⟩ :: state.live)) := rfl

theorem step_ifree (isWidth : width = 4 ∨ width = 8) {state : State} {index : Nat}
    (inv : Inv width state.space state.live lists []) (populated : Populated state.space state.live)
    (inRange : index < state.live.length) :
    ∃ space nextLists,
      step width state (.ifree index) = some ⟨space, state.live.eraseIdx index⟩ ∧
        Freed width state.space space (state.live.eraseIdx index) nextLists := by
  have perm := (List.getElem_cons_eraseIdx_perm inRange).symm
  obtain ⟨space, nextLists, call, freed⟩ : ∃ space nextLists,
      state.space.free width state.live[index].pointer = some space ∧
        Freed width state.space space (state.live.eraseIdx index) nextLists := by
    rcases inv.objects _ (List.getElem_mem inRange) with large | small
    · exact inv.free_large populated perm large
    · exact inv.free_small isWidth populated perm small
  refine ⟨space, nextLists, ?_, freed⟩
  simp only [step, List.getElem?_eq_getElem inRange, Option.bind_eq_bind, Option.bind_some, call]
  rfl

/-- What an event that fits leads to. -/
theorem step_kept (isWidth : width = 4 ∨ width = 8) {state next : State} {event : Event}
    (kept : Kept width state) (enabled : Enabled width state event)
    (fits : LinksFit width event) (result : step width state event = some next) :
    Kept width next ∧ ReleasesEmpty state next := by
  obtain ⟨⟨lists, inv⟩, populated⟩ := kept
  cases event with
  | imalloc size answer =>
      have outcome := inv.malloc_spec isWidth fits enabled.1 enabled.2
      rw [step_imalloc] at result
      generalize state.space.malloc width size answer = answered at result outcome
      cases outcome with
      | failed _ => cases result
      | refused _ =>
          cases result
          refine ⟨⟨⟨lists, inv⟩, populated⟩, ?_⟩
          intro page header isHeader
          refine iff_of_false (by rw [isHeader]; exact Option.some_ne_none _) ?_
          rw [← liveOf_eq_nil_iff]
          exact populated page header isHeader
      | @served pointer space nextLists nonzero nextInv kept others =>
          simp only [Option.bind_eq_bind, Option.bind_some, if_neg nonzero] at result
          cases result
          have nextPopulated : Populated space (⟨pointer, size⟩ :: state.live) := by
            intro page header isHeader
            rw [liveOf_cons]
            by_cases same : Mspace.pageOf pointer = page
            · rw [if_pos same]
              exact List.cons_ne_nil _ _
            · rw [if_neg same]
              rw [others page (Ne.symm same)] at isHeader
              exact populated page header isHeader
          refine ⟨⟨⟨nextLists, nextInv⟩, nextPopulated⟩, ?_⟩
          intro page header isHeader
          obtain ⟨found, isFound⟩ := kept page header isHeader
          refine iff_of_false (by rw [isFound]; exact Option.some_ne_none _) ?_
          rw [← liveOf_eq_nil_iff]
          exact nextPopulated page found isFound
  | ifree index =>
      obtain ⟨space, nextLists, call, freed⟩ := step_ifree isWidth inv populated enabled
      cases call.symm.trans result
      refine ⟨⟨⟨nextLists, freed.inv⟩, freed.populated⟩, ?_⟩
      intro page header isHeader
      exact (freed.released page header isHeader).trans liveOf_eq_nil_iff
  | write place value =>
      cases result
      obtain ⟨object, isLive, above, below⟩ := enabled
      refine ⟨⟨⟨lists, inv.write isWidth isLive above below value⟩, populated⟩, ?_⟩
      intro page header isHeader
      change state.space.header page = none ↔ _
      refine iff_of_false (by rw [isHeader]; exact Option.some_ne_none _) ?_
      rw [← liveOf_eq_nil_iff]
      exact populated page header isHeader

/-- An event that fits fails only when the platform does. -/
theorem Kept.fails (isWidth : width = 4 ∨ width = 8) {state : State} {event : Event}
    (kept : Kept width state) (enabled : Enabled width state event)
    (fits : LinksFit width event) (fault : step width state event = none) :
    PlatformFails event := by
  obtain ⟨⟨lists, inv⟩, populated⟩ := kept
  cases event with
  | imalloc size answer =>
      have outcome := inv.malloc_spec isWidth fits enabled.1 enabled.2
      rw [step_imalloc] at fault
      generalize state.space.malloc width size answer = answered at fault outcome
      cases outcome with
      | failed refused => exact refused
      | refused _ => cases fault
      | served nonzero _ _ _ =>
          simp only [Option.bind_eq_bind, Option.bind_some, if_neg nonzero] at fault
          cases fault
  | ifree index =>
      obtain ⟨_, _, call, _⟩ := step_ifree isWidth inv populated enabled
      cases call.symm.trans fault
  | write place value => cases fault

theorem reachable_kept (isWidth : width = 4 ∨ width = 8) {state : State}
    (reached : (machine width).Reachable (fun _ event => LinksFit width event) state) :
    Kept width state := by
  apply Machine.Reachable.invariant _ _ reached
  · rintro state ⟨memory, rfl⟩
    exact kept_initial memory
  · intro state event next kept enabled fits result
    exact (step_kept isWidth kept enabled fits result).1

/-- Before any request the system may answer with every page. -/
theorem Answers.initial {count answer : Nat} (memory : Memory)
    (granular : answer % platformSize = 0) (nonempty : 0 < platformSize * count % 256 ^ width)
    (inMemory : answer + platformSize * count % 256 ^ width ≤ 256 ^ width) :
    Answers width (.initial memory) count answer :=
  .inr ⟨nonempty, granular, inMemory, fun _ member => nomatch member⟩

/-- Without a node in the bin, `malloc` starts the page of the system. -/
theorem malloc_new {space : Mspace} {size page : Nat} (small : size ≤ platformSize / 2)
    (noNode : space.nodes (bremap (Mspace.tableIndex size)) = 0)
    (granular : page % platformSize = 0) (nonzero : page ≠ 0) :
    ∃ next header, space.malloc width size page = some (firstObjectOf width page, next) ∧
      next.header page = some header ∧ header.index = bremap (Mspace.tableIndex size) := by
  have aligned : ¬ page % platformSize ≠ 0 := not_not.mpr granular
  unfold Mspace.malloc Mspace.fetchNode Mspace.platformAlloc Mspace.newNode Mspace.takeObject
    Mspace.nodeAlloc Mspace.setHeader
  simp only [if_neg (Nat.not_lt_of_le small), noNode, if_neg aligned, if_neg nonzero,
    Option.bind_eq_bind, Option.bind_some, Function.update_self, Option.pure_def, if_true]
  split
  · exact ⟨_, _, rfl, Function.update_self .., rfl⟩
  · exact ⟨_, _, rfl, Function.update_self .., rfl⟩

/-- The objects of four bytes of the page at 65536. -/
theorem objectsOf_smallest {header : NodeHeader} (isIndex : header.index = 0) {i : Nat}
    (below : i < 16376) : 65568 + i * 4 ∈ objectsOf 8 65536 header := by
  have objects : limit 8 (sizes 0) = 16376 := by decide
  have first : firstObjectOf 8 65536 = 65568 := by decide
  unfold objectsOf
  rw [isIndex, objects, first]
  exact mem_run.mpr ⟨i, below, rfl⟩

/-- In every run whose requests fit links the space is kept, `clean_up` releases just the
empty nodes, and an event fails only when the platform does. -/
theorem space_kept (isWidth : width = 4 ∨ width = 8) {state : State}
    (reached : (machine width).Reachable (fun _ event => LinksFit width event) state) :
    SpaceKept width state ∧
      (∀ event next, Enabled width state event → LinksFit width event →
        step width state event = some next → ReleasesEmpty state next) ∧
      ∀ event, Enabled width state event → LinksFit width event →
        step width state event = none → PlatformFails event := by
  have kept := reachable_kept isWidth reached
  have ⟨⟨lists, inv⟩, populated⟩ := kept
  refine ⟨inv.spaceKept isWidth populated, ?_, ?_⟩
  · intro event next enabled fits result
    exact (step_kept isWidth kept enabled fits result).2
  · intro event enabled fits fault
    exact kept.fails isWidth enabled fits fault

/-- With pointers of four bytes, 100 bytes are allocated. -/
theorem space_kept_imalloc : ∃ state,
    step 4 ⟨.initial fun _ => 0, []⟩ (.imalloc 100 65536) = some state ∧ SpaceKept 4 state := by
  have enabled : Enabled 4 ⟨.initial fun _ => 0, []⟩ (.imalloc 100 65536) :=
    ⟨by decide, Answers.initial _ (by decide) (by decide) (by decide)⟩
  have initial : (machine 4).Reachable (fun _ event => LinksFit 4 event)
      ⟨.initial fun _ => 0, []⟩ := .init ⟨_, rfl⟩
  cases result : step 4 ⟨.initial fun _ => 0, []⟩ (.imalloc 100 65536) with
  | none => cases (space_kept (.inl rfl) initial).2.2 _ enabled (.inl rfl) result
  | some state =>
      have reached := @Machine.Reachable.step _ _ (machine 4) (fun _ event => LinksFit 4 event)
        _ _ (.imalloc 100 65536) initial enabled (.inl rfl) result
      exact ⟨state, rfl, (space_kept (.inl rfl) reached).1⟩

/-- With pointers of eight bytes, the links in free objects of four bytes overlap. -/
theorem links_overlap : ∃ state,
    (machine 8).Reachable (fun _ _ => True) state ∧ ¬ SpaceKept 8 state := by
  have enabled : Enabled 8 ⟨.initial fun _ => 0, []⟩ (.imalloc 1 65536) :=
    ⟨by decide, Answers.initial _ (by decide) (by decide) (by decide)⟩
  have isBin : bremap (Mspace.tableIndex 1) = 0 := by decide
  obtain ⟨space, header, call, isHeader, isIndex⟩ := @malloc_new 8 (.initial fun _ => 0) 1 65536
    (by decide) rfl (by decide) (by decide)
  have result : step 8 ⟨.initial fun _ => 0, []⟩ (.imalloc 1 65536) =
      some ⟨space, [⟨firstObjectOf 8 65536, 1⟩]⟩ := by
    rw [step_imalloc, call]
    rfl
  rw [isBin] at isIndex
  have reached := @Machine.Reachable.step _ _ (machine 8) (fun _ _ => True) _ _ (.imalloc 1 65536)
    (.init ⟨_, rfl⟩) enabled trivial result
  refine ⟨_, reached, fun kept => ?_⟩
  have notLive : ¬ IsLive ⟨space, [⟨firstObjectOf 8 65536, 1⟩]⟩ 65572 := by
    change 65572 ∉ [firstObjectOf 8 65536]
    decide
  have second : 65572 ∈ objectsOf 8 65536 header := @objectsOf_smallest header isIndex 1 (by decide)
  have third : 65576 ∈ objectsOf 8 65536 header := @objectsOf_smallest header isIndex 2 (by decide)
  have between := (kept.links 65536 header isHeader 65572 second notLive).2 65576 third (by decide)
  rw [isIndex] at between
  exact absurd between (by decide)

end MallocSurvey.Ironpeter
