import MallocSurvey.Ironpeter.Steps

/-! # Freeing an object -/

namespace MallocSurvey.Ironpeter

open Library

variable {width : Nat} {space : Mspace} {live rest : List Object}
  {lists : Nat → List Nat} {object : Object}

/-- Every node has a live object. -/
def Populated (space : Mspace) (live : List Object) : Prop :=
  ∀ page header, space.header page = some header → liveOf live page ≠ []

/-- What freeing an object leads to: just the nodes without live objects are released. -/
structure Freed (width : Nat) (space next : Mspace) (rest : List Object)
    (nextLists : Nat → List Nat) : Prop where
  inv : Inv width next rest nextLists []
  absent : ∀ page, space.header page = none → next.header page = none
  released : ∀ page header, space.header page = some header →
    (next.header page = none ↔ liveOf rest page = [])

theorem Freed.populated {next : Mspace} {nextLists : Nat → List Nat}
    (freed : Freed width space next rest nextLists) : Populated next rest := by
  intro page header isHeader empty
  cases before : space.header page with
  | none =>
      rw [freed.absent page before] at isHeader
      cases isHeader
  | some found =>
      rw [(freed.released page found before).mpr empty] at isHeader
      cases isHeader

/-- Whole pages go back to the platform. -/
theorem Inv.free_large (inv : Inv width space live lists []) (populated : Populated space live)
    (perm : live.Perm (object :: rest)) (large : LargeOk space object) :
    ∃ next nextLists, space.free width object.pointer = some next ∧
      Freed width space next rest nextLists := by
  have isPage : Mspace.pageOf object.pointer = object.pointer := pageOf_self large.aligned
  have nonzero := (inv.regions _ large.region).nonzero
  have isRegion : space.regions.any fun region => region.start = object.pointer :=
    List.any_eq_true.mpr ⟨_, large.region, decide_eq_true rfl⟩
  have sameHeader : Function.update space.header object.pointer none = space.header := by
    rw [Function.update_eq_self_iff]
    exact large.notNode.symm
  have kept : ∀ region ∈ space.regions, region.start ≠ object.pointer →
      region ∈ space.regions.eraseP fun region => region.start = object.pointer := by
    intro region member different
    exact (List.mem_eraseP_of_neg (by rw [decide_eq_false different]; decide)).mpr member
  have distinct := (perm.map Object.pointer).nodup_iff.mp inv.distinct
  obtain ⟨fresh, restDistinct⟩ := List.nodup_cons.mp distinct
  have notNode : ∀ page header, space.header page = some header → object.pointer ≠ page := by
    intro page header isHeader
    exact large.pointer_ne isHeader
  have sameLive : ∀ page header, space.header page = some header →
      (liveOf rest page).Perm (liveOf live page) := by
    intro page header isHeader
    have perms := liveOf_perm perm page
    rw [liveOf_cons, if_neg fun same => notNode page header isHeader (isPage.symm.trans same)]
      at perms
    exact perms.symm
  have result : space.free width object.pointer = some { space with
      header := Function.update space.header object.pointer none
      regions := space.regions.eraseP fun region => region.start = object.pointer } := by
    unfold Mspace.free Mspace.platformFree
    rw [isPage, if_pos rfl, if_neg nonzero, if_neg (by rw [large.aligned]; decide),
      if_pos isRegion]
  rw [sameHeader] at result
  refine ⟨_, lists, result, ?_, fun _ missing => missing, ?_⟩
  · refine ⟨?_, inv.listed, ?_, inv.apart.sublist (List.eraseP_sublist ..), ?_, restDistinct⟩
    · intro page header isHeader
      obtain ⟨free, node⟩ := inv.nodes page header isHeader
      have different := notNode page header isHeader
      exact ⟨free, { node with
        region := kept _ node.region (Ne.symm different)
        slab := node.slab.perm (sameLive page header isHeader)
        count := node.count.trans (sameLive page header isHeader).length_eq.symm }⟩
    · intro region member
      exact inv.regions region (List.mem_of_mem_eraseP member)
    · intro other isRest
      have isLive := perm.mem_iff.mpr (List.mem_cons_of_mem _ isRest)
      refine (inv.objects other isLive).imp ?_ fun small => ⟨small.small, small.node⟩
      intro otherLarge
      have different : other.pointer ≠ object.pointer := fun same =>
        fresh (List.mem_map.mpr ⟨other, isRest, same⟩)
      exact ⟨otherLarge.large, otherLarge.aligned, otherLarge.notNode,
        kept _ otherLarge.region different⟩
  · intro page header isHeader
    refine iff_of_false (by rw [isHeader]; exact Option.some_ne_none _) ?_
    intro empty
    have perms := sameLive page header isHeader
    rw [empty] at perms
    exact populated page header isHeader (List.nil_perm.mp perms)

/-- The node of an object after `node::free`, on its list again. -/
def freedHeader (space : Mspace) (header : NodeHeader) (p : Nat) : NodeHeader where
  next := if header.firstObject = 0 then space.nodes header.index else header.next
  usedObjs := header.usedObjs - 1
  index := header.index
  firstObject := p

/-- The space before `clean_up`. -/
def freedSpace (width : Nat) (space : Mspace) (page : Nat) (header : NodeHeader) (p : Nat) :
    Mspace where
  memory := storeBytes space.memory p width header.firstObject
  header := Function.update space.header page (some (freedHeader space header p))
  nodes := if header.firstObject = 0 then Function.update space.nodes header.index page
    else space.nodes
  regions := space.regions

theorem free_eq {page p : Nat} {header : NodeHeader} (isPage : Mspace.pageOf p = page)
    (inside : page ≠ p) (isHeader : space.header page = some header) :
    space.free width p =
      if header.usedObjs - 1 = 0 then (freedSpace width space page header p).cleanUp
      else some (freedSpace width space page header p) := by
  unfold Mspace.free
  rw [isPage]
  dsimp only
  rw [if_neg inside, isHeader, Option.bind_eq_bind, Option.bind_some]
  unfold freedSpace freedHeader
  by_cases full : header.firstObject = 0
  · simp only [if_pos full, Mspace.nodeFree, Mspace.setHeader, Function.update_self,
      Option.bind_eq_bind, Option.bind_some, Function.update_idem, pure]
  · simp only [if_neg full, Mspace.nodeFree, Mspace.setHeader, isHeader, Function.update_self,
      Option.bind_eq_bind, Option.bind_some, pure]

/-- An object of a node goes back to the node. -/
theorem Inv.freedSpace_inv (inv : Inv width space live lists []) (isWidth : width = 4 ∨ width = 8)
    (perm : live.Perm (object :: rest)) {page : Nat} {header : NodeHeader} {free : List Nat}
    (isPage : Mspace.pageOf object.pointer = page) (isHeader : space.header page = some header)
    (node : NodeInv width space.memory space.regions (liveOf live page) page header free) :
    ∃ nextLists, Inv width (freedSpace width space page header object.pointer) rest nextLists [] := by
  have atLeast := sizes_ge header.index
  have livePerm := liveOf_perm perm page
  rw [liveOf_cons, if_pos isPage] at livePerm
  have nonzero := (width_bounds isWidth).1
  have start : firstObjectOf width page ≠ 0 := by
    unfold firstObjectOf sizeofHeader
    omega
  have slab := (node.slab.perm livePerm.symm).put node.wide (by omega) start
    (node.fits isWidth inv)
  have bounds := node.object_bounds isWidth (.inr (livePerm.mem_iff.mpr List.mem_cons_self))
  have counted := node.count.trans livePerm.length_eq
  rw [List.length_cons] at counted
  have freedNode : NodeInv width (storeBytes space.memory object.pointer width header.firstObject)
      space.regions (liveOf rest page) page (freedHeader space header object.pointer)
      (object.pointer :: free) :=
    ⟨node.nonzero, node.aligned, node.index, node.wide, node.region, slab, by
      unfold freedHeader
      dsimp only
      omega⟩
  have wide := node.wide
  have distinct := (perm.map Object.pointer).nodup_iff.mp inv.distinct
  have listed : ∃ nextLists, Listed
      (Function.update space.header page (some (freedHeader space header object.pointer)))
      (if header.firstObject = 0 then Function.update space.nodes header.index page
        else space.nodes) nextLists [] := by
    by_cases full : header.firstObject = 0
    · rw [if_pos full]
      have offLists : ∀ bin, page ∉ lists bin := by
        intro bin member
        obtain ⟨_, found, isFound, _, some_free⟩ := (inv.listed.mem bin page).mp member
        rw [isHeader] at isFound
        cases isFound
        exact some_free full
      have some_free : (freedHeader space header object.pointer).firstObject ≠ 0 := by
        unfold freedHeader
        dsimp only
        omega
      have isNext : (freedHeader space header object.pointer).next =
          space.nodes (freedHeader space header object.pointer).index := if_pos full
      exact ⟨_, inv.listed.push offLists List.not_mem_nil (fun _ _ => Iff.rfl) node.nonzero
        some_free isNext⟩
    · rw [if_neg full]
      refine ⟨lists, inv.listed.keep isHeader rfl (if_neg full) (iff_of_false ?_ full)⟩
      unfold freedHeader
      dsimp only
      omega
  obtain ⟨nextLists, listed⟩ := listed
  refine ⟨nextLists, ?_⟩
  apply inv.putNode isWidth freedNode (fun _ member => member) inv.regions inv.apart
  · intro found isFound
    rw [isHeader] at isFound
    cases isFound
    rfl
  · intro place outside
    exact storeBytes_outside (by omega)
  · intro other different
    have perms := liveOf_perm perm other
    rw [liveOf_cons, if_neg fun same => different (same.symm.trans isPage)] at perms
    exact perms.symm
  · exact listed
  · intro other isRest
    have isLive := perm.mem_iff.mpr (List.mem_cons_of_mem _ isRest)
    exact (inv.objects other isLive).imp (fun large => ⟨large, large.pointer_ne isHeader⟩) .inl
  · exact (List.nodup_cons.mp distinct).2

theorem Inv.free_small (inv : Inv width space live lists []) (isWidth : width = 4 ∨ width = 8)
    (populated : Populated space live) (perm : live.Perm (object :: rest))
    (small : SmallOk space object) :
    ∃ next nextLists, space.free width object.pointer = some next ∧
      Freed width space next rest nextLists := by
  have isLive : object ∈ live := perm.mem_iff.mpr List.mem_cons_self
  obtain ⟨header, free, isHeader, _, node, member⟩ := inv.node_at isLive small
  obtain ⟨freedLists, freedInv⟩ := inv.freedSpace_inv isWidth perm rfl isHeader node
  have bounds := node.object_bounds isWidth (.inr member)
  have livePerm := liveOf_perm perm (Mspace.pageOf object.pointer)
  rw [liveOf_cons, if_pos rfl] at livePerm
  have counted := node.count.trans livePerm.length_eq
  rw [List.length_cons] at counted
  have othersLive : ∀ page, page ≠ Mspace.pageOf object.pointer → ∀ found,
      space.header page = some found → liveOf rest page ≠ [] := by
    intro page different found isFound empty
    have perms := liveOf_perm perm page
    rw [liveOf_cons, if_neg (Ne.symm different), empty] at perms
    exact populated page found isFound (List.perm_nil.mp perms)
  have freedAt : (freedSpace width space (Mspace.pageOf object.pointer) header
      object.pointer).header (Mspace.pageOf object.pointer) =
        some (freedHeader space header object.pointer) := Function.update_self ..
  have sameOthers : ∀ page, page ≠ Mspace.pageOf object.pointer →
      (freedSpace width space (Mspace.pageOf object.pointer) header
        object.pointer).header page = space.header page := fun page different =>
    Function.update_of_ne different _ _
  rw [free_eq rfl (Nat.ne_of_lt bounds.1) isHeader]
  by_cases last : header.usedObjs - 1 = 0
  · rw [if_pos last]
    obtain ⟨next, nextLists, cleaned, nextInv, tidied⟩ := freedInv.cleanUp_spec isWidth
    have restEmpty : liveOf rest (Mspace.pageOf object.pointer) = [] :=
      List.length_eq_zero_iff.mp (by omega)
    refine ⟨next, nextLists, cleaned, nextInv, ?_, ?_⟩
    · intro page missing
      by_cases same : page = Mspace.pageOf object.pointer
      · rw [same, isHeader] at missing
        cases missing
      · exact tidied.absent page ((sameOthers page same).trans missing)
    · intro page found isFound
      by_cases same : page = Mspace.pageOf object.pointer
      · rw [same]
        exact iff_of_true (tidied.released _ _ freedAt trivial restEmpty) restEmpty
      · have notEmpty := othersLive page same found isFound
        obtain ⟨link, isNext⟩ := tidied.kept page found ((sameOthers page same).trans isFound)
          fun chosen => notEmpty chosen.2
        rw [isNext]
        exact iff_of_false (Option.some_ne_none _) notEmpty
  · rw [if_neg last]
    refine ⟨_, freedLists, rfl, freedInv, ?_, ?_⟩
    · intro page missing
      by_cases same : page = Mspace.pageOf object.pointer
      · rw [same, isHeader] at missing
        cases missing
      · exact (sameOthers page same).trans missing
    · intro page found isFound
      by_cases same : page = Mspace.pageOf object.pointer
      · rw [same, freedAt]
        refine iff_of_false (Option.some_ne_none _) ?_
        intro empty
        rw [empty] at counted
        simp only [List.length_nil] at counted
        omega
      · rw [sameOthers page same, isFound]
        exact iff_of_false (Option.some_ne_none _) (othersLive page same found isFound)

end MallocSurvey.Ironpeter
