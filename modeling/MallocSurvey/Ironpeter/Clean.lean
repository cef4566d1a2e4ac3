import MallocSurvey.Ironpeter.Invariant

/-! # `clean_up` releases the empty nodes -/

namespace MallocSurvey.Ironpeter

open Library

variable {width : Nat} {space next : Mspace} {live : List Object} {lists : Nat → List Nat}
  {detached : List Nat} {page : Nat} {header : NodeHeader}

/-- An empty node that is on no list goes back to the platform. -/
theorem Inv.platformFree_node (inv : Inv width space live lists (page :: detached))
    (isHeader : space.header page = some header) (empty : liveOf live page = []) :
    ∃ next, space.platformFree page = some next ∧ Inv width next live lists detached ∧
      next.header = Function.update space.header page none ∧
      next.memory = space.memory ∧ next.nodes = space.nodes := by
  obtain ⟨free, node⟩ := inv.nodes page header isHeader
  have isRegion : space.regions.any fun region => region.start = page :=
    List.any_eq_true.mpr ⟨_, node.region, decide_eq_true rfl⟩
  have kept : ∀ region ∈ space.regions, region.start ≠ page →
      region ∈ space.regions.eraseP fun region => region.start = page := by
    intro region member different
    exact (List.mem_eraseP_of_neg (by rw [decide_eq_false different]; decide)).mpr member
  have offLists : ∀ bin, page ∉ lists bin := fun bin member =>
    ((inv.listed.mem bin page).mp member).1 List.mem_cons_self
  refine ⟨{ space with
    header := Function.update space.header page none
    regions := space.regions.eraseP fun region => region.start = page }, ?_, ?_, rfl, rfl, rfl⟩
  · unfold Mspace.platformFree
    rw [if_neg node.nonzero, if_neg (by rw [node.aligned]; decide), if_pos isRegion]
  · refine ⟨?_, ⟨inv.listed.heads, inv.listed.update offLists none, inv.listed.nodup, ?_⟩, ?_, ?_, ?_,
      inv.distinct⟩
    · intro other otherHeader isOther
      have different : other ≠ page := by
        rintro rfl
        change Function.update space.header other none other = some otherHeader at isOther
        rw [Function.update_self] at isOther
        cases isOther
      change Function.update space.header page none other = some otherHeader at isOther
      rw [Function.update_of_ne different] at isOther
      obtain ⟨otherFree, otherNode⟩ := inv.nodes other otherHeader isOther
      exact ⟨otherFree, { otherNode with region := kept _ otherNode.region different }⟩
    · intro bin other
      change _ ↔ _ ∧ ∃ otherHeader, Function.update space.header page none other = _ ∧ _
      by_cases same : other = page
      · subst same
        rw [Function.update_self]
        refine iff_of_false (offLists bin) ?_
        rintro ⟨_, _, impossible, _⟩
        cases impossible
      · rw [Function.update_of_ne same, inv.listed.mem, List.mem_cons, not_or, and_iff_right same]
    · intro region member
      exact inv.regions region (List.mem_of_mem_eraseP member)
    · exact inv.apart.sublist (List.eraseP_sublist ..)
    · intro object isLive
      refine (inv.objects object isLive).imp ?_ ?_
      · intro large
        have different : object.pointer ≠ page := by
          intro same
          have notNode := large.notNode
          rw [same, isHeader] at notNode
          cases notNode
        exact ⟨large.large, large.aligned, (Function.update_of_ne different _ _).trans
          large.notNode, kept _ large.region different⟩
      · rintro ⟨small, otherHeader, isOther, isIndex⟩
        have different : Mspace.pageOf object.pointer ≠ page := by
          intro same
          have member := mem_liveOf.mpr ⟨object, isLive, same, rfl⟩
          rw [empty] at member
          cases member
        exact ⟨small, otherHeader, (Function.update_of_ne different _ _).trans isOther, isIndex⟩

/-- A node that is on no list becomes the first one of its bin. -/
theorem Inv.relink (inv : Inv width space live lists (page :: detached))
    (fresh : page ∉ detached) (isHeader : space.header page = some header)
    (some_free : header.firstObject ≠ 0) :
    Inv width
      { space.setHeader page { header with next := space.nodes header.index } with
        nodes := Function.update space.nodes header.index page } live
      (Function.update lists header.index (page :: lists header.index)) detached := by
  obtain ⟨free, node⟩ := inv.nodes page header isHeader
  have offLists : ∀ bin, page ∉ lists bin := fun bin member =>
    ((inv.listed.mem bin page).mp member).1 List.mem_cons_self
  refine ⟨?_, ?_, inv.regions, inv.apart, ?_, inv.distinct⟩
  · intro other otherHeader isOther
    change Function.update space.header page _ other = _ at isOther
    by_cases same : other = page
    · subst same
      rw [Function.update_self] at isOther
      cases isOther
      exact ⟨free, ⟨node.nonzero, node.aligned, node.index, node.wide, node.region, node.slab,
        node.count⟩⟩
    · rw [Function.update_of_ne same] at isOther
      exact inv.nodes other otherHeader isOther
  · have isNext : ({ header with next := space.nodes header.index } : NodeHeader).next =
        space.nodes header.index := rfl
    refine inv.listed.push offLists fresh ?_ node.nonzero some_free isNext
    intro other different
    rw [List.mem_cons, or_iff_right different]
  · intro object isLive
    refine (inv.objects object isLive).imp ?_ ?_
    · intro large
      have different : object.pointer ≠ page := by
        intro same
        have notNode := large.notNode
        rw [same, isHeader] at notNode
        cases notNode
      exact ⟨large.large, large.aligned, (Function.update_of_ne different _ _).trans
        large.notNode, large.region⟩
    · rintro ⟨small, otherHeader, isOther, isIndex⟩
      refine ⟨small, ?_⟩
      change ∃ found, Function.update space.header page _ _ = some found ∧ _
      by_cases same : Mspace.pageOf object.pointer = page
      · rw [same, Function.update_self]
        rw [same, isHeader] at isOther
        cases isOther
        exact ⟨_, rfl, isIndex⟩
      · rw [Function.update_of_ne same]
        exact ⟨otherHeader, isOther, isIndex⟩

/-! ## The loops -/

/-- The chosen nodes without live objects have been released, and nothing else has changed
but links. -/
structure Tidied (live : List Object) (Chosen : Nat → Prop) (space next : Mspace) : Prop where
  memory : next.memory = space.memory
  absent : ∀ page, space.header page = none → next.header page = none
  released : ∀ page header, space.header page = some header → Chosen page →
    liveOf live page = [] → next.header page = none
  kept : ∀ page header, space.header page = some header →
    ¬ (Chosen page ∧ liveOf live page = []) →
    ∃ link, next.header page = some { header with next := link }

namespace Tidied

theorem trans {left right both : Nat → Prop} {middle : Mspace}
    (first : Tidied live left space middle) (second : Tidied live right middle next)
    (same : ∀ page header, space.header page = some header →
      (both page ↔ left page ∨ right page)) : Tidied live both space next where
  memory := second.memory.trans first.memory
  absent page missing := second.absent page (first.absent page missing)
  released page header isHeader chosen empty := by
    rcases (same page header isHeader).mp chosen with isLeft | isRight
    · exact second.absent page (first.released page header isHeader isLeft empty)
    · by_cases isLeft : left page
      · exact second.absent page (first.released page header isHeader isLeft empty)
      · obtain ⟨link, isMiddle⟩ := first.kept page header isHeader fun chosen => isLeft chosen.1
        exact second.released page _ isMiddle isRight empty
  kept page header isHeader stays := by
    obtain ⟨link, isMiddle⟩ := first.kept page header isHeader fun chosen =>
      stays ⟨(same page header isHeader).mpr (.inl chosen.1), chosen.2⟩
    obtain ⟨other, isNext⟩ := second.kept page _ isMiddle fun chosen =>
      stays ⟨(same page header isHeader).mpr (.inr chosen.1), chosen.2⟩
    exact ⟨other, isNext⟩

end Tidied

/-- The loop over the nodes of a bin. -/
theorem cleanBin_spec (isWidth : width = 4 ∨ width = 8) {bin : Nat} (detached : List Nat) :
    ∀ {space : Mspace} {lists : Nat → List Nat} {fuel : Nat},
      Inv width space live lists detached → detached.Nodup →
      Linked id (nextOf space.header) detached →
      (∀ page ∈ detached, ∃ header, space.header page = some header ∧ header.index = bin ∧
        header.firstObject ≠ 0) →
      detached.length < fuel →
      ∃ next nextLists, cleanBin bin fuel (detached.headD 0) space = some next ∧
        Inv width next live nextLists [] ∧ Tidied live (· ∈ detached) space next := by
  induction detached with
  | nil =>
      intro space lists fuel inv _ _ _ enough
      obtain ⟨fuel, rfl⟩ := Nat.exists_eq_succ_of_ne_zero (Nat.ne_zero_of_lt enough)
      refine ⟨space, lists, if_pos rfl, inv, ?_⟩
      exact ⟨rfl, fun _ missing => missing, fun _ _ _ member => (by cases member),
        fun page header isHeader _ => ⟨header.next, isHeader⟩⟩
  | cons page rest induction =>
      intro space lists fuel inv nodup linked members enough
      obtain ⟨fuel, rfl⟩ := Nat.exists_eq_succ_of_ne_zero (Nat.ne_zero_of_lt enough)
      rw [List.length_cons] at enough
      obtain ⟨fresh, restNodup⟩ := List.nodup_cons.mp nodup
      obtain ⟨header, isHeader, isBin, some_free⟩ := members page List.mem_cons_self
      subst isBin
      obtain ⟨free, node⟩ := inv.nodes page header isHeader
      have isNext : header.next = rest.headD 0 := by
        have isLink := linked.2.1
        unfold nextOf at isLink
        dsimp only [id] at isLink
        rwa [isHeader] at isLink
      have restMembers := fun other (member : other ∈ rest) =>
        members other (List.mem_cons_of_mem _ member)
      have differs : ∀ other ∈ rest, other ≠ page := fun other member same =>
        fresh (same ▸ member)
      rw [List.headD_cons]
      unfold cleanBin
      rw [if_neg node.nonzero, isHeader, Option.bind_eq_bind, Option.bind_some]
      by_cases unused : header.usedObjs = 0
      · have empty : liveOf live page = [] :=
          List.length_eq_zero_iff.mp (node.count.symm.trans unused)
        obtain ⟨released, freed, releasedInv, headers, memory, _⟩ :=
          inv.platformFree_node isHeader empty
        have sameHeader : ∀ other, other ≠ page →
            released.header other = space.header other := by
          intro other different
          rw [headers, Function.update_of_ne different]
        have releasedTidied : Tidied live (· = page) space released := by
          refine ⟨memory, ?_, ?_, ?_⟩
          · intro other missing
            by_cases same : other = page
            · rw [headers, same, Function.update_self]
            · rw [sameHeader other same, missing]
          · intro other _ _ same _
            rw [headers, same, Function.update_self]
          · intro other otherHeader isOther stays
            have different : other ≠ page := by
              rintro rfl
              exact stays ⟨rfl, empty⟩
            exact ⟨otherHeader.next, (sameHeader other different).trans isOther⟩
        have restLinked : Linked id (nextOf released.header) rest := by
          apply linked_congr linked.2.2
          intro other member
          unfold nextOf
          rw [sameHeader other (differs other member)]
        obtain ⟨next, nextLists, result, nextInv, tidied⟩ := @induction released lists fuel
          releasedInv restNodup restLinked (fun other member => by
            rw [sameHeader other (differs other member)]
            exact restMembers other member) (by omega)
        refine ⟨next, nextLists, ?_, nextInv, releasedTidied.trans tidied ?_⟩
        · rw [if_pos unused, freed, isNext]
          exact result
        · intro other _ _
          exact List.mem_cons
      · rw [if_neg unused, isNext]
        have relinked := inv.relink fresh isHeader some_free
        have sameHeader : ∀ other, other ≠ page → Function.update space.header page
            (some { header with next := space.nodes header.index }) other = space.header other :=
          fun other different => Function.update_of_ne different _ _
        have relinkedTidied : Tidied live (· = page) space
            { space.setHeader page { header with next := space.nodes header.index } with
              nodes := Function.update space.nodes header.index page } := by
          have notEmpty : liveOf live page ≠ [] := fun empty =>
            unused (node.count.trans (List.length_eq_zero_iff.mpr empty))
          refine ⟨rfl, ?_, ?_, ?_⟩
          · intro other missing
            have different : other ≠ page := by
              rintro rfl
              rw [isHeader] at missing
              cases missing
            exact (sameHeader other different).trans missing
          · intro other _ _ same empty
            exact absurd (same ▸ empty) notEmpty
          · intro other otherHeader isOther _
            change ∃ link, Function.update space.header page _ other = _
            by_cases same : other = page
            · subst same
              rw [isHeader] at isOther
              cases isOther
              rw [Function.update_self]
              exact ⟨_, rfl⟩
            · rw [Function.update_of_ne same]
              exact ⟨otherHeader.next, isOther⟩
        obtain ⟨next, nextLists, result, nextInv, tidied⟩ := @induction _ _ fuel relinked
          restNodup (linked_congr linked.2.2 fun other member =>
            nextOf_update_of_ne (differs other member)) (fun other member => by
            change ∃ found, Function.update space.header page _ other = _ ∧ _
            rw [Function.update_of_ne (differs other member)]
            exact restMembers other member) (by omega)
        refine ⟨next, nextLists, result, nextInv, relinkedTidied.trans tidied ?_⟩
        intro other _ _
        exact List.mem_cons

/-- A bin is taken off and its nodes are dealt with. -/
theorem Inv.detach (inv : Inv width space live lists []) (bin : Nat) :
    Inv width { space with nodes := Function.update space.nodes bin 0 } live
      (Function.update lists bin []) (lists bin) := by
  refine ⟨inv.nodes, ⟨?_, ?_, ?_, ?_⟩, inv.regions, inv.apart, ?_, inv.distinct⟩
  · intro other
    change Function.update space.nodes bin 0 other = _
    by_cases same : other = bin
    · subst same
      rw [Function.update_self, Function.update_self]
      rfl
    · rw [Function.update_of_ne same, Function.update_of_ne same]
      exact inv.listed.heads other
  · intro other
    by_cases same : other = bin
    · subst same
      rw [Function.update_self]
      trivial
    · rw [Function.update_of_ne same]
      exact inv.listed.linked other
  · intro other
    by_cases same : other = bin
    · subst same
      rw [Function.update_self]
      exact List.nodup_nil
    · rw [Function.update_of_ne same]
      exact inv.listed.nodup other
  · intro other page
    rw [inv.listed.mem bin page]
    by_cases same : other = bin
    · subst same
      rw [Function.update_self]
      refine iff_of_false List.not_mem_nil ?_
      rintro ⟨absent, present⟩
      exact absent ⟨List.not_mem_nil, present⟩
    · rw [Function.update_of_ne same, inv.listed.mem other page]
      constructor
      · rintro ⟨_, header, isHeader, isIndex, some_free⟩
        refine ⟨?_, header, isHeader, isIndex, some_free⟩
        rintro ⟨_, found, isFound, foundIndex, _⟩
        rw [isHeader] at isFound
        cases isFound
        exact same (isIndex.symm.trans foundIndex)
      · rintro ⟨_, present⟩
        exact ⟨List.not_mem_nil, present⟩
  · intro object isLive
    exact (inv.objects object isLive).imp (fun large => ⟨large.large, large.aligned,
      large.notNode, large.region⟩) fun small => ⟨small.small, small.node⟩

/-- A node that is on the list of one of the bins. -/
def ListedIn (space : Mspace) (bins : List Nat) (page : Nat) : Prop :=
  ∃ header, space.header page = some header ∧ header.index ∈ bins ∧ header.firstObject ≠ 0

theorem cleanBins_spec (isWidth : width = 4 ∨ width = 8) (bins : List Nat) :
    ∀ {space : Mspace} {lists : Nat → List Nat}, Inv width space live lists [] → bins.Nodup →
      ∃ next nextLists, cleanBins bins space = some next ∧
        Inv width next live nextLists [] ∧ Tidied live (ListedIn space bins) space next := by
  induction bins with
  | nil =>
      intro space lists inv _
      refine ⟨space, lists, rfl, inv, rfl, fun _ missing => missing, ?_, ?_⟩
      · rintro page header _ ⟨_, _, impossible, _⟩
        cases impossible
      · intro page header isHeader _
        exact ⟨header.next, isHeader⟩
  | cons bin rest induction =>
      intro space lists inv nodup
      obtain ⟨fresh, restNodup⟩ := List.nodup_cons.mp nodup
      have members : ∀ page ∈ lists bin, ∃ header, space.header page = some header ∧
          header.index = bin ∧ header.firstObject ≠ 0 := fun page member =>
        ((inv.listed.mem bin page).mp member).2
      have enough : (lists bin).length < space.regions.length + 1 := by
        apply Nat.lt_succ_of_le
        apply inv.length_le (inv.listed.nodup bin)
        intro page member
        obtain ⟨header, isHeader, _⟩ := members page member
        exact ⟨header, isHeader⟩
      obtain ⟨middle, middleLists, result, middleInv, tidied⟩ := cleanBin_spec isWidth (lists bin)
        (inv.detach bin) (inv.listed.nodup bin) (inv.listed.linked bin) members enough
      obtain ⟨next, nextLists, restResult, nextInv, restTidied⟩ := induction middleInv restNodup
      refine ⟨next, nextLists, ?_, nextInv, ?_⟩
      · unfold cleanBins
        rw [inv.listed.heads, result]
        exact restResult
      · have firstTidied : Tidied live (· ∈ lists bin) space middle :=
          ⟨tidied.memory, tidied.absent, tidied.released, tidied.kept⟩
        apply firstTidied.trans restTidied
        intro page header isHeader
        by_cases listed : page ∈ lists bin
        · refine iff_of_true ?_ (.inl listed)
          obtain ⟨_, found, isFound, isIndex, some_free⟩ := (inv.listed.mem bin page).mp listed
          exact ⟨found, isFound, isIndex ▸ List.mem_cons_self, some_free⟩
        · obtain ⟨link, isMiddle⟩ := firstTidied.kept page header isHeader fun chosen =>
            listed chosen.1
          rw [or_iff_right listed]
          unfold ListedIn
          rw [isHeader, isMiddle]
          constructor
          · rintro ⟨_, same, isIndex, some_free⟩
            cases same
            refine ⟨_, rfl, ?_, some_free⟩
            rcases List.mem_cons.mp isIndex with isBin | isRest
            · exact absurd ((inv.listed.mem bin page).mpr
                ⟨List.not_mem_nil, header, isHeader, isBin, some_free⟩) listed
            · exact isRest
          · rintro ⟨_, same, isIndex, some_free⟩
            cases same
            exact ⟨_, rfl, List.mem_cons_of_mem _ isIndex, some_free⟩

/-- `clean_up` releases just the nodes without live objects. -/
theorem Inv.cleanUp_spec (inv : Inv width space live lists []) (isWidth : width = 4 ∨ width = 8) :
    ∃ next nextLists, space.cleanUp = some next ∧ Inv width next live nextLists [] ∧
      Tidied live (fun _ => True) space next := by
  obtain ⟨next, nextLists, result, nextInv, tidied⟩ :=
    cleanBins_spec isWidth (List.range platformBins) inv List.nodup_range
  refine ⟨next, nextLists, result, nextInv, tidied.memory, tidied.absent, ?_, ?_⟩
  · intro page header isHeader _ empty
    obtain ⟨free, node⟩ := inv.nodes page header isHeader
    have inBins := node.index
    refine tidied.released page header isHeader ⟨header, isHeader, ?_, ?_⟩ empty
    · rw [List.mem_range]
      unfold platformBins
      omega
    · rw [empty] at node
      exact node.firstObject_ne_zero isWidth
  · intro page header isHeader stays
    exact tidied.kept page header isHeader fun chosen => stays ⟨trivial, chosen.2⟩

end MallocSurvey.Ironpeter
