import MallocSurvey.Ironpeter.Clean

/-! # `malloc` and `free` of the space -/

namespace MallocSurvey.Ironpeter

open Library

variable {width : Nat} {space next : Mspace} {live after : List Object}
  {lists nextLists : Nat → List Nat} {page : Nat} {header changed : NodeHeader}

/-- Pages are apart. -/
theorem pages_apart {other : Nat} (aligned : page % platformSize = 0)
    (otherAligned : other % platformSize = 0) (different : other ≠ page) :
    other + platformSize ≤ page ∨ page + platformSize ≤ other := by
  unfold platformSize at *
  omega

/-- A node keeps its objects when nothing happens in its page. -/
theorem NodeInv.frame {memory other : Memory} {regions more : List Extent} {objects free : List Nat}
    (node : NodeInv width memory regions objects page header free)
    (isWidth : width = 4 ∨ width = 8)
    (same : ∀ place, page ≤ place → place < page + platformSize → other place = memory place)
    (kept : ⟨page, platformSize⟩ ∈ more) :
    NodeInv width other more objects page header free := by
  have inPage := (limit_spec isWidth node.index).2
  refine { node with region := kept, slab := node.slab.congr_outside node.wide ?_ }
  intro place above below
  unfold firstObjectOf at above below
  exact same place (by omega) (by omega)

/-- A node is made or changes, and with it the live objects in its page. -/
theorem Inv.putNode (inv : Inv width space live lists []) (isWidth : width = 4 ∨ width = 8)
    {memory : Memory} {nodes : Nat → Nat} {regions : List Extent} {free : List Nat}
    (node : NodeInv width memory regions (liveOf after page) page changed free)
    (kept : ∀ region ∈ space.regions, region ∈ regions)
    (regionsOk : ∀ region ∈ regions, RegionOk width region)
    (apart : regions.Pairwise Extent.Apart)
    (sameIndex : ∀ header, space.header page = some header → changed.index = header.index)
    (frame : ∀ place, place < page ∨ page + platformSize ≤ place →
      memory place = space.memory place)
    (others : ∀ other, other ≠ page → (liveOf after other).Perm (liveOf live other))
    (listed : Listed (Function.update space.header page (some changed)) nodes nextLists [])
    (objects : ∀ object ∈ after, LargeOk space object ∧ object.pointer ≠ page ∨
      SmallOk space object ∨ object.size ≤ platformSize / 2 ∧
        Mspace.pageOf object.pointer = page ∧
        changed.index = bremap (Mspace.tableIndex object.size))
    (distinct : (after.map Object.pointer).Nodup) :
    Inv width ⟨memory, Function.update space.header page (some changed), nodes, regions⟩ after
      nextLists [] where
  nodes := by
    intro other otherHeader isOther
    change Function.update space.header page _ other = _ at isOther
    by_cases same : other = page
    · subst same
      rw [Function.update_self] at isOther
      cases isOther
      exact ⟨free, node⟩
    · rw [Function.update_of_ne same] at isOther
      obtain ⟨otherFree, otherNode⟩ := inv.nodes other otherHeader isOther
      have away := pages_apart node.aligned otherNode.aligned same
      have moved : NodeInv width memory regions (liveOf live other) other otherHeader otherFree :=
        otherNode.frame isWidth (fun place _ _ => frame place (by omega)) (kept _ otherNode.region)
      exact ⟨otherFree, { moved with
        slab := moved.slab.perm (others other same)
        count := moved.count.trans (others other same).length_eq.symm }⟩
  listed := listed
  regions := regionsOk
  apart := apart
  objects := by
    intro object isLive
    rcases objects object isLive with ⟨large, different⟩ | small | ⟨small, isPage, isIndex⟩
    · exact .inl ⟨large.large, large.aligned, (Function.update_of_ne different _ _).trans
        large.notNode, kept _ large.region⟩
    · obtain ⟨otherHeader, isOther, isIndex⟩ := small.node
      refine .inr ⟨small.small, ?_⟩
      change ∃ found, Function.update space.header page _ _ = some found ∧ _
      by_cases same : Mspace.pageOf object.pointer = page
      · rw [same, Function.update_self]
        rw [same] at isOther
        exact ⟨_, rfl, (sameIndex _ isOther).trans isIndex⟩
      · rw [Function.update_of_ne same]
        exact ⟨otherHeader, isOther, isIndex⟩
    · refine .inr ⟨small, changed, ?_, isIndex⟩
      rw [isPage]
      exact Function.update_self ..
  distinct := distinct

/-! ## Nodes -/

/-- With links that fit, the constructor links the objects one after another. -/
theorem linkObjects_eq {granularity first : Nat} (wide : width ≤ granularity) (left : Nat) :
    ∀ (i : Nat) (memory : Memory),
      first + (i + left) * granularity < 256 ^ width →
      linkObjects width granularity first left i (first + i * granularity) memory =
        linkRun width granularity left (first + i * granularity) memory := by
  induction left with
  | zero => exact fun i memory _ => rfl
  | succ left induction =>
      intro i memory fits
      have stored : loadBytes (storeBytes memory (first + i * granularity) width
          (first + (i + 1) * granularity)) (first + i * granularity) width =
          first + (i + 1) * granularity := by
        apply loadBytes_storeBytes
        refine Nat.lt_of_le_of_lt ?_ fits
        exact Nat.add_le_add_left (Nat.mul_le_mul_right _ (by omega)) _
      have next : first + i * granularity + granularity = first + (i + 1) * granularity := by
        rw [Nat.succ_mul, Nat.add_assoc]
      unfold linkObjects linkRun
      dsimp only
      rw [stored, next]
      exact induction (i + 1) _ (by rw [Nat.add_right_comm, Nat.add_assoc]; exact fits)

/-- The objects of a new node. -/
theorem newNode_slab (isWidth : width = 4 ∨ width = 8) {index : Nat} (inBins : index ≤ 31)
    (wide : width ≤ sizes index) (ok : RegionOk width ⟨page, platformSize⟩) (memory : Memory) :
    Slab (linkObjects width (sizes index) (firstObjectOf width page)
        (limit width (sizes index) - 1) 0 (firstObjectOf width page) memory)
      width (firstObjectOf width page) (sizes index) (limit width (sizes index))
      (firstObjectOf width page) [] (run (firstObjectOf width page) (limit width (sizes index))
        (sizes index)) ∧
    ∀ place, place < page ∨ page + platformSize ≤ place →
      linkObjects width (sizes index) (firstObjectOf width page)
        (limit width (sizes index) - 1) 0 (firstObjectOf width page) memory place =
          memory place := by
  obtain ⟨positive, inPage⟩ := limit_spec isWidth inBins
  have atLeast := sizes_ge index
  have nonzero := ok.nonzero
  have fits := ok.fits
  dsimp only at nonzero fits
  have bounds : firstObjectOf width page + sizes index * limit width (sizes index) ≤
      256 ^ width := by
    unfold firstObjectOf
    omega
  have objects : limit width (sizes index) - 1 + 1 = limit width (sizes index) :=
    Nat.sub_add_cancel positive
  have linked : linkObjects width (sizes index) (firstObjectOf width page)
      (limit width (sizes index) - 1) 0 (firstObjectOf width page) memory =
        linkRun width (sizes index) (limit width (sizes index) - 1) (firstObjectOf width page)
          memory := by
    have whole := @linkObjects_eq width (sizes index) (firstObjectOf width page) wide
      (limit width (sizes index) - 1) 0 memory (by
        rw [Nat.zero_add, Nat.mul_comm]
        have last := Nat.mul_le_mul_left (sizes index) (Nat.le_of_eq objects)
        rw [Nat.mul_succ] at last
        omega)
    rwa [Nat.zero_mul, Nat.add_zero] at whole
  have start : firstObjectOf width page ≠ 0 := by
    unfold firstObjectOf
    omega
  rw [linked]
  refine ⟨Slab.linkRun wide (by omega) positive start bounds memory, ?_⟩
  intro place outside
  have frame := (linkRun_spec wide (by omega) (limit width (sizes index) - 1)
    (firstObjectOf width page) memory start (by rw [objects]; exact bounds)).2
  apply frame
  rw [objects]
  unfold firstObjectOf
  omega

/-- What the system answers with memory is a region apart from the others. -/
theorem regionOk_of_answers {count answer : Nat} (answers : Answers width space count answer)
    (nonzero : answer ≠ 0) : RegionOk width ⟨answer, platformSize * count % 256 ^ width⟩ ∧
      ∀ region ∈ space.regions,
        Extent.Apart ⟨answer, platformSize * count % 256 ^ width⟩ region := by
  obtain ⟨positive, aligned, fits, apart⟩ := answers.resolve_left nonzero
  exact ⟨⟨aligned, nonzero, positive, fits⟩, apart⟩

theorem platformAlloc_eq {count answer : Nat} (answers : Answers width space count answer)
    (nonzero : answer ≠ 0) :
    space.platformAlloc width count answer = some (answer, { space with
      regions := ⟨answer, platformSize * count % 256 ^ width⟩ :: space.regions }) := by
  have aligned := (answers.resolve_left nonzero).2.1
  unfold Mspace.platformAlloc
  rw [if_neg (by rw [aligned]; decide), if_neg nonzero]

/-- No node or live object starts in fresh memory. -/
theorem Inv.fresh (inv : Inv width space live lists []) (isWidth : width = 4 ∨ width = 8)
    {region : Extent} (ok : RegionOk width region)
    (apart : ∀ other ∈ space.regions, region.Apart other) :
    space.header region.start = none ∧
      ∀ object ∈ live, Mspace.pageOf object.pointer ≠ region.start := by
  have unstarted : ∀ other ∈ space.regions, other.start ≠ region.start := by
    intro other member same
    have between := apart other member
    have positive := ok.nonempty
    have otherPositive := (inv.regions other member).nonempty
    unfold Extent.Apart Apart at between
    omega
  constructor
  · cases isHeader : space.header region.start with
    | none => rfl
    | some header =>
        obtain ⟨free, node⟩ := inv.nodes _ header isHeader
        exact absurd rfl (unstarted ⟨region.start, platformSize⟩ node.region)
  · intro object isLive isPage
    obtain ⟨other, member, isStart, _⟩ := inv.live_region isWidth isLive
    exact unstarted other member (isStart.trans isPage)

theorem onePage (isWidth : width = 4 ∨ width = 8) :
    platformSize * 1 % 256 ^ width = platformSize := by
  rcases isWidth with rfl | rfl
  · decide
  · decide

/-- The node that `fetchNode` starts on a new page. -/
theorem fetchNode_new {msb mss answer : Nat} (empty : space.nodes msb = 0) (nonzero : answer ≠ 0)
    (call : space.platformAlloc width 1 answer =
      some (answer, { space with regions := ⟨answer, platformSize⟩ :: space.regions })) :
    space.fetchNode width msb mss answer =
      some (answer, ⟨linkObjects width mss (firstObjectOf width answer) (limit width mss - 1) 0
          (firstObjectOf width answer) space.memory,
        Function.update space.header answer
          (some ⟨space.nodes msb, 0, msb, firstObjectOf width answer⟩),
        Function.update space.nodes msb answer,
        ⟨answer, platformSize⟩ :: space.regions⟩) := by
  unfold Mspace.fetchNode
  dsimp only
  rw [if_pos empty, call]
  simp only [Option.bind_eq_bind, Option.bind_some, Mspace.newNode, if_neg nonzero,
    Mspace.setHeader, Function.update_self, Function.update_idem, pure]

/-- What `fetchNode` leads to: a node with a free object that is the first one of its bin. -/
inductive FetchedNode (width : Nat) (space : Mspace) (live : List Object) (msb answer : Nat) :
    Option (Nat × Mspace) → Prop
  | failed : answer = 0 → FetchedNode width space live msb answer none
  | fetched {dest : Nat} {next : Mspace} {lists : Nat → List Nat} {rest : List Nat} :
      Inv width next live lists [] → lists msb = dest :: rest →
      (∀ page header, space.header page = some header → next.header page = some header) →
      (∀ page, page ≠ dest → next.header page = space.header page) →
      FetchedNode width space live msb answer (some (dest, next))

theorem Inv.fetchNode_spec (inv : Inv width space live lists []) (isWidth : width = 4 ∨ width = 8)
    {msb answer : Nat} (inBins : msb ≤ 31) (wide : width ≤ sizes msb)
    (answers : Answers width space 1 answer) :
    FetchedNode width space live msb answer (space.fetchNode width msb (sizes msb) answer) := by
  by_cases empty : space.nodes msb = 0
  · by_cases refused : answer = 0
    · subst refused
      unfold Mspace.fetchNode
      dsimp only
      rw [if_pos empty]
      exact .failed rfl
    · obtain ⟨ok, apart⟩ := regionOk_of_answers answers refused
      have call := platformAlloc_eq answers refused
      rw [onePage isWidth] at ok apart call
      obtain ⟨notNode, noLive⟩ := inv.fresh isWidth ok apart
      obtain ⟨slab, frame⟩ := newNode_slab isWidth inBins wide ok space.memory
      have noObjects : liveOf live answer = [] := by
        unfold liveOf
        rw [List.map_eq_nil_iff, List.filter_eq_nil_iff]
        intro object isLive isPage
        exact noLive object isLive (of_decide_eq_true isPage)
      have node : NodeInv width (linkObjects width (sizes msb) (firstObjectOf width answer)
          (limit width (sizes msb) - 1) 0 (firstObjectOf width answer) space.memory)
          (⟨answer, platformSize⟩ :: space.regions) (liveOf live answer) answer
          ⟨space.nodes msb, 0, msb, firstObjectOf width answer⟩
          (run (firstObjectOf width answer) (limit width (sizes msb)) (sizes msb)) := by
        rw [noObjects]
        exact ⟨refused, ok.aligned, inBins, wide, List.mem_cons_self, slab, rfl⟩
      have offLists : ∀ bin, answer ∉ lists bin := by
        intro bin member
        obtain ⟨_, header, isHeader, _⟩ := (inv.listed.mem bin answer).mp member
        rw [notNode] at isHeader
        cases isHeader
      have start : firstObjectOf width answer ≠ 0 := by
        unfold firstObjectOf
        omega
      have isNext : (NodeHeader.mk (space.nodes msb) 0 msb (firstObjectOf width answer)).next =
          space.nodes msb := rfl
      have listed := inv.listed.push offLists List.not_mem_nil (fun _ _ => Iff.rfl) refused start
        isNext
      have made := inv.putNode isWidth node (fun region member => List.mem_cons_of_mem _ member)
        (fun region member => (List.mem_cons.mp member).elim (fun same => same ▸ ok)
          (inv.regions region))
        (List.pairwise_cons.mpr ⟨apart, inv.apart⟩)
        (fun header isHeader => by rw [notNode] at isHeader; cases isHeader) frame
        (fun _ _ => .rfl) listed (fun object isLive => (inv.objects object isLive).imp
          (fun large => ⟨large, fun same => noLive object isLive
            ((pageOf_self large.aligned).trans same)⟩) .inl) inv.distinct
      rw [fetchNode_new empty refused call]
      refine .fetched made (Function.update_self ..) ?_ ?_
      · intro other header isHeader
        have different : other ≠ answer := by
          rintro rfl
          rw [notNode] at isHeader
          cases isHeader
        exact (Function.update_of_ne different _ _).trans isHeader
      · intro other different
        exact Function.update_of_ne different _ _
  · unfold Mspace.fetchNode
    dsimp only
    rw [if_neg empty]
    have heads := inv.listed.heads msb
    cases isList : lists msb with
    | nil =>
        rw [isList] at heads
        exact absurd heads empty
    | cons first rest =>
        rw [isList, List.headD_cons] at heads
        rw [heads]
        exact .fetched inv isList (fun _ _ isHeader => isHeader) fun _ _ => rfl

/-- Objects of whole pages are not where a node is. -/
theorem LargeOk.pointer_ne {object : Object} (large : LargeOk space object)
    (isHeader : space.header page = some header) : object.pointer ≠ page := by
  intro same
  have notNode := large.notNode
  rw [same, isHeader] at notNode
  cases notNode

/-- The first free object of the first node of a bin becomes live. -/
theorem Inv.takeObject_spec (inv : Inv width space live lists [])
    (isWidth : width = 4 ∨ width = 8) {msb dest size : Nat} {rest : List Nat}
    (isList : lists msb = dest :: rest) (small : size ≤ platformSize / 2)
    (isBin : msb = bremap (Mspace.tableIndex size)) :
    ∃ result next nextLists, space.takeObject width msb dest = some (result, next) ∧
      result ≠ 0 ∧ Mspace.pageOf result = dest ∧
      Inv width next (⟨result, size⟩ :: live) nextLists [] ∧
      (∀ page, page ≠ dest → next.header page = space.header page) ∧
      ∃ header, next.header dest = some header := by
  have member : dest ∈ lists msb := by
    rw [isList]
    exact List.mem_cons_self
  obtain ⟨_, header, isHeader, isIndex, some_free⟩ := (inv.listed.mem msb dest).mp member
  subst isIndex
  obtain ⟨free, node⟩ := inv.nodes dest header isHeader
  obtain ⟨others, isFree, slab⟩ := node.slab.take some_free
  have inFree : header.firstObject ∈ free := by
    rw [isFree]
    exact List.mem_cons_self
  have bounds := node.object_bounds isWidth (.inl inFree)
  have atLeast := sizes_ge header.index
  have isPage : Mspace.pageOf header.firstObject = dest := by
    obtain ⟨offset, isOffset⟩ := Nat.exists_eq_add_of_le (Nat.le_of_lt bounds.1)
    rw [isOffset]
    exact pageOf_add node.aligned (by omega)
  let changed : NodeHeader := { header with
    usedObjs := header.usedObjs + 1
    firstObject := loadBytes space.memory header.firstObject width }
  have changedNode : NodeInv width space.memory space.regions
      (liveOf (⟨header.firstObject, size⟩ :: live) dest) dest changed others := by
    rw [liveOf_cons, if_pos isPage]
    exact ⟨node.nonzero, node.aligned, node.index, node.wide, node.region, slab, by
      rw [List.length_cons, ← node.count]⟩
  have sameOthers : ∀ other, other ≠ dest →
      (liveOf (⟨header.firstObject, size⟩ :: live) other).Perm (liveOf live other) := by
    intro other different
    rw [liveOf_cons, if_neg fun same => different (same.symm.trans isPage)]
  have objects : ∀ object ∈ (⟨header.firstObject, size⟩ : Object) :: live,
      LargeOk space object ∧ object.pointer ≠ dest ∨ SmallOk space object ∨
        object.size ≤ platformSize / 2 ∧ Mspace.pageOf object.pointer = dest ∧
          changed.index = bremap (Mspace.tableIndex object.size) := by
    intro object isLive
    rcases List.mem_cons.mp isLive with rfl | isLive
    · exact .inr (.inr ⟨small, isPage, isBin⟩)
    · exact (inv.objects object isLive).imp (fun large => ⟨large, large.pointer_ne isHeader⟩) .inl
  have distinct : ((⟨header.firstObject, size⟩ :: live : List Object).map Object.pointer).Nodup := by
    refine List.nodup_cons.mpr ⟨?_, inv.distinct⟩
    intro inLive
    obtain ⟨object, isLive, same⟩ := List.mem_map.mp inLive
    have isMember : header.firstObject ∈ liveOf live dest :=
      mem_liveOf.mpr ⟨object, isLive, by rw [same, isPage], same⟩
    exact (List.nodup_append.mp (node.slab.nodup (by omega))).2.2 _ inFree _ isMember rfl
  have sameIndex : ∀ found, space.header dest = some found → changed.index = found.index := by
    intro found isFound
    rw [isHeader] at isFound
    cases isFound
    rfl
  have taken : space.takeObject width header.index dest =
      some (header.firstObject, ⟨space.memory, Function.update space.header dest (some changed),
        if changed.firstObject = 0 then Function.update space.nodes header.index header.next
        else space.nodes, space.regions⟩) := by
    unfold Mspace.takeObject Mspace.nodeAlloc
    rw [isHeader]
    simp only [Option.bind_eq_bind, Option.bind_some, pure, Mspace.setHeader, Function.update_self]
    by_cases full : changed.firstObject = 0
    · rw [if_pos full, if_pos full]
    · rw [if_neg full, if_neg full]
  refine ⟨_, _, if changed.firstObject = 0 then Function.update lists header.index rest else lists,
    taken, by omega, isPage, ?_, fun page different => Function.update_of_ne different _ _,
    changed, Function.update_self ..⟩
  apply inv.putNode isWidth changedNode (fun _ member => member) inv.regions inv.apart sameIndex
    (fun _ _ => rfl) sameOthers ?_ objects distinct
  by_cases full : changed.firstObject = 0
  · rw [if_pos full, if_pos full]
    have sameList : lists changed.index = dest :: rest := isList
    exact inv.listed.pop sameList isHeader rfl rfl full
  · rw [if_neg full, if_neg full]
    exact inv.listed.keep isHeader rfl rfl (iff_of_false full some_free)

/-! ## `malloc` -/

/-- What `malloc` leads to. -/
inductive Outcome (width : Nat) (space : Mspace) (live : List Object) (size answer : Nat) :
    Option (Nat × Mspace) → Prop
  | failed : answer = 0 → Outcome width space live size answer none
  | refused : answer = 0 → Outcome width space live size answer (some (0, space))
  | served {result : Nat} {next : Mspace} {nextLists : Nat → List Nat} : result ≠ 0 →
      Inv width next (⟨result, size⟩ :: live) nextLists [] →
      (∀ page header, space.header page = some header → ∃ found, next.header page = some found) →
      (∀ page, page ≠ Mspace.pageOf result → next.header page = space.header page) →
      Outcome width space live size answer (some (result, next))

/-- Whole pages for an object. -/
theorem Inv.addLarge (inv : Inv width space live lists []) (isWidth : width = 4 ∨ width = 8)
    {size answer : Nat} (large : platformSize / 2 < size)
    (ok : RegionOk width ⟨answer, Object.room ⟨answer, size⟩⟩)
    (apart : ∀ region ∈ space.regions,
      Extent.Apart ⟨answer, Object.room ⟨answer, size⟩⟩ region) :
    Inv width { space with regions := ⟨answer, Object.room ⟨answer, size⟩⟩ :: space.regions }
      (⟨answer, size⟩ :: live) lists [] := by
  obtain ⟨notNode, noLive⟩ := inv.fresh isWidth ok apart
  have isPage : Mspace.pageOf answer = answer := pageOf_self ok.aligned
  refine ⟨?_, inv.listed, ?_, List.pairwise_cons.mpr ⟨apart, inv.apart⟩, ?_, ?_⟩
  · intro page header isHeader
    obtain ⟨free, node⟩ := inv.nodes page header isHeader
    have different : answer ≠ page := by
      rintro rfl
      change space.header answer = none at notNode
      change space.header answer = some header at isHeader
      rw [notNode] at isHeader
      cases isHeader
    rw [liveOf_cons, if_neg fun same => different (isPage.symm.trans same)]
    exact ⟨free, { node with region := List.mem_cons_of_mem _ node.region }⟩
  · intro region member
    rcases List.mem_cons.mp member with rfl | member
    · exact ok
    · exact inv.regions region member
  · intro object isLive
    rcases List.mem_cons.mp isLive with rfl | isLive
    · exact .inl ⟨large, ok.aligned, notNode, List.mem_cons_self⟩
    · exact (inv.objects object isLive).imp (fun isLarge => ⟨isLarge.large, isLarge.aligned,
        isLarge.notNode, List.mem_cons_of_mem _ isLarge.region⟩) fun small =>
        ⟨small.small, small.node⟩
  · refine List.nodup_cons.mpr ⟨?_, inv.distinct⟩
    intro inLive
    obtain ⟨object, isLive, same⟩ := List.mem_map.mp inLive
    apply noLive object isLive
    rw [same]
    exact isPage

theorem Inv.malloc_spec (inv : Inv width space live lists []) (isWidth : width = 4 ∨ width = 8)
    {size answer : Nat} (fits : width = 4 ∨ 4 < size) (inRange : size < 256 ^ width)
    (answers : Answers width space (pagesFor size) answer) :
    Outcome width space live size answer (space.malloc width size answer) := by
  unfold Mspace.malloc
  unfold pagesFor at answers
  by_cases large : platformSize / 2 < size
  · rw [if_pos large] at answers ⊢
    by_cases refused : answer = 0
    · have result : space.platformAlloc width ((size - 1) / platformSize + 1) answer =
          some (0, space) := by
        unfold Mspace.platformAlloc
        rw [refused, if_neg (by decide), if_pos rfl]
      rw [result]
      exact .refused refused
    · rw [platformAlloc_eq answers refused]
      obtain ⟨ok, apart⟩ := regionOk_of_answers answers refused
      have noWrap : platformSize * ((size - 1) / platformSize + 1) % 256 ^ width =
          Object.room ⟨answer, size⟩ := by
        unfold Object.room
        rw [if_pos large]
        apply Nat.mod_eq_of_lt
        have positive := ok.nonempty
        dsimp only at positive
        unfold platformSize at *
        rcases isWidth with rfl | rfl
        · omega
        · omega
      rw [noWrap] at ok apart ⊢
      have isPage : Mspace.pageOf answer = answer := pageOf_self ok.aligned
      exact .served refused (inv.addLarge isWidth large ok apart)
        (fun _ header isHeader => ⟨header, isHeader⟩) fun _ _ => rfl
  · have small := Nat.le_of_not_lt large
    rw [if_neg large] at answers ⊢
    have inBins := (bremap_spec (tableIndex_spec small).1).1
    have wide := width_le_bsizes isWidth small fits
    have fetched := inv.fetchNode_spec isWidth inBins wide answers
    unfold bsizes
    dsimp only
    generalize space.fetchNode width (bremap (Mspace.tableIndex size))
      (sizes (bremap (Mspace.tableIndex size))) answer = outcome at fetched
    cases fetched with
    | failed refused => exact .failed refused
    | @fetched dest middle middleLists rest middleInv isList kept others =>
        obtain ⟨result, next, nextLists, taken, nonzero, isPage, nextInv, sameHeader, header,
          isHeader⟩ := middleInv.takeObject_spec isWidth isList small rfl
        simp only [Option.bind_eq_bind, Option.bind_some, taken]
        refine .served nonzero nextInv ?_ ?_
        · intro page found isFound
          by_cases same : page = dest
          · rw [same]
            exact ⟨header, isHeader⟩
          · rw [sameHeader page same]
            exact ⟨found, kept page found isFound⟩
        · intro page different
          rw [isPage] at different
          rw [sameHeader page different, others page different]

end MallocSurvey.Ironpeter
