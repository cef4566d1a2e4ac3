import MallocSurvey.Library.Slab
import MallocSurvey.Ironpeter.Mspace

/-! # The invariant of the space

The objects of a node are a slab. Every bin lists the nodes with a free object, except
those that `clean_up` has taken off and not dealt with. -/

namespace MallocSurvey.Ironpeter

open Library

/-- The live objects of a node. -/
def liveOf (live : List Object) (page : Nat) : List Nat :=
  (live.filter fun object => Mspace.pageOf object.pointer = page).map Object.pointer

/-- The `next` of a node. -/
def nextOf (header : Nat → Option NodeHeader) (page : Nat) : Nat :=
  match header page with
  | some header => header.next
  | none => 0

structure NodeInv (width : Nat) (memory : Memory) (regions : List Extent) (live : List Nat)
    (page : Nat) (header : NodeHeader) (free : List Nat) : Prop where
  nonzero : page ≠ 0
  aligned : page % platformSize = 0
  index : header.index ≤ 31
  wide : width ≤ sizes header.index
  region : ⟨page, platformSize⟩ ∈ regions
  slab : Slab memory width (firstObjectOf width page) (sizes header.index)
    (limit width (sizes header.index)) header.firstObject live free
  count : header.usedObjs = live.length

/-- A region of the platform. -/
structure RegionOk (width : Nat) (region : Extent) : Prop where
  aligned : region.start % platformSize = 0
  nonzero : region.start ≠ 0
  nonempty : 0 < region.length
  fits : region.start + region.length ≤ 256 ^ width

/-- An object of whole pages. -/
structure LargeOk (space : Mspace) (object : Object) : Prop where
  large : platformSize / 2 < object.size
  aligned : object.pointer % platformSize = 0
  notNode : space.header object.pointer = none
  region : ⟨object.pointer, object.room⟩ ∈ space.regions

/-- An object of a node. -/
structure SmallOk (space : Mspace) (object : Object) : Prop where
  small : object.size ≤ platformSize / 2
  node : ∃ header, space.header (Mspace.pageOf object.pointer) = some header ∧
    header.index = bremap (Mspace.tableIndex object.size)

/-- The lists of the bins, and that they have the nodes with a free object. -/
structure Listed (headers : Nat → Option NodeHeader) (nodes : Nat → Nat)
    (lists : Nat → List Nat) (detached : List Nat) : Prop where
  heads : ∀ bin, nodes bin = (lists bin).headD 0
  linked : ∀ bin, Linked id (nextOf headers) (lists bin)
  nodup : ∀ bin, (lists bin).Nodup
  mem : ∀ bin page, page ∈ lists bin ↔ page ∉ detached ∧
    ∃ header, headers page = some header ∧ header.index = bin ∧ header.firstObject ≠ 0

structure Inv (width : Nat) (space : Mspace) (live : List Object) (lists : Nat → List Nat)
    (detached : List Nat) : Prop where
  nodes : ∀ page header, space.header page = some header →
    ∃ free, NodeInv width space.memory space.regions (liveOf live page) page header free
  listed : Listed space.header space.nodes lists detached
  regions : ∀ region ∈ space.regions, RegionOk width region
  apart : space.regions.Pairwise Extent.Apart
  objects : ∀ object ∈ live, LargeOk space object ∨ SmallOk space object
  distinct : (live.map Object.pointer).Nodup

variable {width : Nat} {space : Mspace} {live next : List Object} {lists : Nat → List Nat}
  {detached free : List Nat} {page : Nat} {header : NodeHeader}

theorem width_bounds (isWidth : width = 4 ∨ width = 8) : 0 < width ∧ width ≤ 8 := by omega

/-! ## Pages -/

theorem pageOf_add {offset : Nat} (aligned : page % platformSize = 0)
    (inside : offset < platformSize) : Mspace.pageOf (page + offset) = page := by
  unfold Mspace.pageOf platformSize at *
  omega

theorem pageOf_self (aligned : page % platformSize = 0) : Mspace.pageOf page = page := by
  unfold Mspace.pageOf platformSize at *
  omega

/-! ## Live objects -/

theorem liveOf_cons (object : Object) (live : List Object) (page : Nat) :
    liveOf (object :: live) page =
      if Mspace.pageOf object.pointer = page then object.pointer :: liveOf live page
      else liveOf live page := by
  unfold liveOf
  by_cases same : Mspace.pageOf object.pointer = page
  · simp [same]
  · simp [same]

theorem mem_liveOf {start : Nat} :
    start ∈ liveOf live page ↔
      ∃ object ∈ live, Mspace.pageOf object.pointer = page ∧ object.pointer = start := by
  simp [liveOf, and_assoc]

theorem liveOf_perm (perm : live.Perm next) (page : Nat) :
    (liveOf live page).Perm (liveOf next page) :=
  (perm.filter _).map _

namespace NodeInv

theorem object_bounds (node : NodeInv width space.memory space.regions (liveOf live page) page header free)
    (isWidth : width = 4 ∨ width = 8) {start : Nat}
    (member : start ∈ free ∨ start ∈ liveOf live page) :
    page < start ∧ start + sizes header.index ≤ page + platformSize := by
  have bounds := run_bounds (node.slab.mem_run member)
  have inPage := (limit_spec isWidth node.index).2
  unfold firstObjectOf sizeofHeader at *
  omega

theorem fits (node : NodeInv width space.memory space.regions (liveOf live page) page header free)
    (isWidth : width = 4 ∨ width = 8) (inv : Inv width space live lists detached) :
    firstObjectOf width page + sizes header.index * limit width (sizes header.index) ≤
      256 ^ width := by
  have regionFits := (inv.regions _ node.region).fits
  have inPage := (limit_spec isWidth node.index).2
  unfold firstObjectOf
  dsimp only at regionFits
  omega

/-- An empty node has a free object. -/
theorem firstObject_ne_zero (node : NodeInv width space.memory space.regions [] page header free)
    (isWidth : width = 4 ∨ width = 8) : header.firstObject ≠ 0 := by
  rw [Ne, node.slab.head_eq_zero_iff]
  intro empty
  have length := node.slab.length
  have positive := (limit_spec isWidth node.index).1
  rw [empty] at length
  simp only [List.length_nil] at length
  omega

end NodeInv

/-- A small object has the room of its class. -/
theorem SmallOk.room_eq {object : Object} (ok : SmallOk space object) :
    object.room = sizes (bremap (Mspace.tableIndex object.size)) :=
  if_neg (Nat.not_lt_of_le ok.small)

theorem Inv.node_at (inv : Inv width space live lists detached) {object : Object}
    (isLive : object ∈ live) (ok : SmallOk space object) :
    ∃ header free, space.header (Mspace.pageOf object.pointer) = some header ∧
      sizes header.index = object.room ∧
      NodeInv width space.memory space.regions (liveOf live (Mspace.pageOf object.pointer))
        (Mspace.pageOf object.pointer) header free ∧
      object.pointer ∈ liveOf live (Mspace.pageOf object.pointer) := by
  obtain ⟨header, isHeader, isIndex⟩ := ok.node
  obtain ⟨free, node⟩ := inv.nodes _ header isHeader
  exact ⟨header, free, isHeader, by rw [isIndex, ok.room_eq], node,
    mem_liveOf.mpr ⟨object, isLive, rfl, rfl⟩⟩

/-- A live object lies in a region of the platform: its own one or that of its node. -/
theorem Inv.live_region (inv : Inv width space live lists detached)
    (isWidth : width = 4 ∨ width = 8) {object : Object} (isLive : object ∈ live) :
    ∃ region ∈ space.regions, region.start = Mspace.pageOf object.pointer ∧
      Extent.Inside ⟨object.pointer, object.room⟩ region := by
  rcases inv.objects object isLive with large | small
  · exact ⟨_, large.region, (pageOf_self large.aligned).symm, Nat.le_refl _, Nat.le_refl _⟩
  · obtain ⟨header, free, _, isRoom, node, member⟩ := inv.node_at isLive small
    have bounds := node.object_bounds isWidth (.inr member)
    exact ⟨_, node.region, rfl, Nat.le_of_lt bounds.1, isRoom ▸ bounds.2⟩

/-- Nodes and objects of whole pages do not share a page. -/
theorem Inv.liveOf_small (inv : Inv width space live lists detached) {object : Object}
    (isLive : object ∈ live) (isHeader : space.header page = some header)
    (isPage : Mspace.pageOf object.pointer = page) : SmallOk space object := by
  rcases inv.objects object isLive with large | small
  · rw [pageOf_self large.aligned] at isPage
    have notNode := large.notNode
    rw [isPage, isHeader] at notNode
    cases notNode
  · exact small

/-! ## Lists -/

section

variable {headers other : Nat → Option NodeHeader} {nodes : Nat → Nat}

theorem linked_congr {list : List Nat} (linked : Linked id (nextOf headers) list)
    (same : ∀ page ∈ list, nextOf other page = nextOf headers page) :
    Linked id (nextOf other) list :=
  linked.congr same

theorem nextOf_update_of_ne {value : Option NodeHeader} {target : Nat} (different : target ≠ page) :
    nextOf (Function.update headers page value) target = nextOf headers target := by
  unfold nextOf
  rw [Function.update_of_ne different]

namespace Listed

/-- A node that is on no list may change. -/
theorem update (listed : Listed headers nodes lists detached) (absent : ∀ bin, page ∉ lists bin)
    (value : Option NodeHeader) (bin : Nat) :
    Linked id (nextOf (Function.update headers page value)) (lists bin) := by
  apply linked_congr (listed.linked bin)
  intro target member
  exact nextOf_update_of_ne fun same => absent bin (same ▸ member)

/-- A node that is on no list becomes the first one of its bin. -/
theorem push {before : List Nat} {changed : NodeHeader}
    (listed : Listed headers nodes lists before) (absent : ∀ bin, page ∉ lists bin)
    (fresh : page ∉ detached)
    (others : ∀ target, target ≠ page → (target ∈ before ↔ target ∈ detached)) (nonzero : page ≠ 0)
    (some_free : changed.firstObject ≠ 0) (isNext : changed.next = nodes changed.index) :
    Listed (Function.update headers page (some changed))
      (Function.update nodes changed.index page)
      (Function.update lists changed.index (page :: lists changed.index)) detached where
  heads bin := by
    by_cases same : bin = changed.index
    · subst same
      rw [Function.update_self, Function.update_self, List.headD_cons]
    · rw [Function.update_of_ne same, Function.update_of_ne same]
      exact listed.heads bin
  linked bin := by
    by_cases same : bin = changed.index
    · subst same
      rw [Function.update_self]
      refine ⟨nonzero, ?_, listed.update absent _ _⟩
      change nextOf (Function.update headers page _) page = _
      unfold nextOf
      rw [Function.update_self]
      exact isNext.trans (listed.heads _)
    · rw [Function.update_of_ne same]
      exact listed.update absent _ _
  nodup bin := by
    by_cases same : bin = changed.index
    · subst same
      rw [Function.update_self]
      exact List.nodup_cons.mpr ⟨absent _, listed.nodup _⟩
    · rw [Function.update_of_ne same]
      exact listed.nodup bin
  mem bin target := by
    by_cases isPage : target = page
    · subst isPage
      rw [Function.update_self, and_iff_right fresh]
      by_cases same : bin = changed.index
      · subst same
        rw [Function.update_self]
        exact iff_of_true List.mem_cons_self ⟨_, rfl, rfl, some_free⟩
      · rw [Function.update_of_ne same]
        refine iff_of_false (absent bin) ?_
        rintro ⟨_, isHeader, isIndex, _⟩
        cases isHeader
        exact same isIndex.symm
    · have inOld : target ∈ Function.update lists changed.index (page :: lists changed.index) bin ↔
          target ∈ lists bin := by
        by_cases same : bin = changed.index
        · subst same
          rw [Function.update_self, List.mem_cons, or_iff_right isPage]
        · rw [Function.update_of_ne same]
      rw [Function.update_of_ne isPage, inOld, listed.mem, others target isPage]

/-- The first node of a bin is taken off when it has no free object left. -/
theorem pop {header changed : NodeHeader} {rest : List Nat}
    (listed : Listed headers nodes lists []) (isList : lists changed.index = page :: rest)
    (isHeader : headers page = some header) (sameIndex : changed.index = header.index)
    (sameNext : changed.next = header.next) (full : changed.firstObject = 0) :
    Listed (Function.update headers page (some changed))
      (Function.update nodes changed.index header.next)
      (Function.update lists changed.index rest) [] := by
  have nodup := listed.nodup changed.index
  have linked := listed.linked changed.index
  rw [isList] at nodup linked
  obtain ⟨fresh, restNodup⟩ := List.nodup_cons.mp nodup
  have absent : ∀ bin, page ∉ Function.update lists changed.index rest bin := by
    intro bin
    by_cases same : bin = changed.index
    · subst same
      rw [Function.update_self]
      exact fresh
    · rw [Function.update_of_ne same]
      intro member
      obtain ⟨_, found, isFound, isIndex, _⟩ := (listed.mem bin page).mp member
      rw [isHeader] at isFound
      cases isFound
      exact same (isIndex.symm.trans sameIndex.symm)
  refine ⟨?_, ?_, ?_, ?_⟩
  · intro bin
    by_cases same : bin = changed.index
    · subst same
      rw [Function.update_self, Function.update_self]
      have isNext := linked.2.1
      unfold nextOf at isNext
      dsimp only [id] at isNext
      rwa [isHeader] at isNext
    · rw [Function.update_of_ne same, Function.update_of_ne same]
      exact listed.heads bin
  · intro bin
    by_cases same : bin = changed.index
    · subst same
      have isRest := absent changed.index
      rw [Function.update_self] at isRest ⊢
      exact linked_congr linked.2.2 fun target member =>
        nextOf_update_of_ne fun same => isRest (same ▸ member)
    · have isOld := absent bin
      rw [Function.update_of_ne same] at isOld ⊢
      exact linked_congr (listed.linked bin) fun target member =>
        nextOf_update_of_ne fun same => isOld (same ▸ member)
  · intro bin
    by_cases same : bin = changed.index
    · subst same
      rw [Function.update_self]
      exact restNodup
    · rw [Function.update_of_ne same]
      exact listed.nodup bin
  · intro bin target
    by_cases isPage : target = page
    · subst isPage
      rw [Function.update_self]
      refine iff_of_false (absent bin) ?_
      rintro ⟨_, found, isFound, _, some_free⟩
      cases isFound
      exact some_free full
    · rw [Function.update_of_ne isPage, ← listed.mem]
      by_cases same : bin = changed.index
      · subst same
        rw [Function.update_self, isList, List.mem_cons, or_iff_right isPage]
      · rw [Function.update_of_ne same]

/-- A node changes without getting its first free object or losing its last one. -/
theorem keep {header changed : NodeHeader} (listed : Listed headers nodes lists [])
    (isHeader : headers page = some header) (sameIndex : changed.index = header.index)
    (sameNext : changed.next = header.next)
    (sameFree : changed.firstObject = 0 ↔ header.firstObject = 0) :
    Listed (Function.update headers page (some changed)) nodes lists [] where
  heads := listed.heads
  linked bin := by
    apply linked_congr (listed.linked bin)
    intro target _
    by_cases isPage : target = page
    · subst isPage
      unfold nextOf
      rw [Function.update_self, isHeader]
      exact sameNext
    · exact nextOf_update_of_ne isPage
  nodup := listed.nodup
  mem bin target := by
    rw [listed.mem]
    by_cases isPage : target = page
    · subst isPage
      rw [Function.update_self, isHeader]
      apply and_congr_right
      intro _
      constructor
      · rintro ⟨_, same, isIndex, some_free⟩
        cases same
        exact ⟨_, rfl, sameIndex.trans isIndex, (not_congr sameFree).mpr some_free⟩
      · rintro ⟨_, same, isIndex, some_free⟩
        cases same
        exact ⟨_, rfl, sameIndex.symm.trans isIndex, (not_congr sameFree).mp some_free⟩
    · rw [Function.update_of_ne isPage]

end Listed

end

/-- No more nodes are on a list than the platform has regions. -/
theorem Inv.length_le (inv : Inv width space live lists detached) {list : List Nat}
    (nodup : list.Nodup)
    (members : ∀ page ∈ list, ∃ header, space.header page = some header) :
    list.length ≤ space.regions.length := by
  have mapped : (list.map fun page => Extent.mk page platformSize).Nodup :=
    nodup.map fun _ _ same => (Extent.mk.inj same).1
  have subset : (list.map fun page => Extent.mk page platformSize) ⊆ space.regions := by
    intro region member
    obtain ⟨page, isPage, rfl⟩ := List.mem_map.mp member
    obtain ⟨header, isHeader⟩ := members page isPage
    obtain ⟨_, node⟩ := inv.nodes page header isHeader
    exact node.region
  have length := (List.subperm_of_subset mapped subset).length_le
  rwa [List.length_map] at length

end MallocSurvey.Ironpeter
