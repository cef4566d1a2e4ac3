import MallocSurvey.Library.Extents
import Mathlib.Data.List.Basic

/-! # Tilings

Extents tile a range of addresses when they follow each other through it without a
gap. The tiles of several blocks are kept in one list, in any order. -/

namespace MallocSurvey.Library.Extent

def Tiles (start : Nat) : List Extent → Nat → Prop
  | [], stop => start = stop
  | tile :: rest, stop => tile.start = start ∧ Tiles (start + tile.length) rest stop

namespace Tiles

variable {start middle stop : Nat} {first second tiles : List Extent}

theorem le (tiling : Tiles start tiles stop) : start ≤ stop := by
  induction tiles generalizing start with
  | nil => exact Nat.le_of_eq tiling
  | cons tile rest induction =>
      exact Nat.le_trans (Nat.le_add_right start tile.length) (induction tiling.2)

theorem append (left : Tiles start first middle) (right : Tiles middle second stop) :
    Tiles start (first ++ second) stop := by
  induction first generalizing start with
  | nil =>
      have same : start = middle := left
      exact same ▸ right
  | cons tile rest induction => exact ⟨left.1, induction left.2⟩

/-- A tiling cut before one of its tiles. -/
theorem split (tiling : Tiles start (first ++ second) stop) :
    ∃ middle, Tiles start first middle ∧ Tiles middle second stop := by
  induction first generalizing start with
  | nil => exact ⟨start, rfl, tiling⟩
  | cons tile rest induction =>
      obtain ⟨middle, left, right⟩ := induction tiling.2
      exact ⟨middle, ⟨tiling.1, left⟩, right⟩

theorem inside (tiling : Tiles start tiles stop) {tile : Extent} (member : tile ∈ tiles) :
    start ≤ tile.start ∧ tile.start + tile.length ≤ stop := by
  induction tiles generalizing start with
  | nil => cases member
  | cons first rest induction =>
      rcases List.mem_cons.mp member with isFirst | member
      · have rest_le := tiling.2.le
        have starts := tiling.1
        subst isFirst
        omega
      · have within := induction tiling.2 member
        omega

theorem apart (tiling : Tiles start tiles stop) : tiles.Pairwise Apart := by
  induction tiles generalizing start with
  | nil => exact .nil
  | cons first rest induction =>
      refine List.pairwise_cons.mpr ⟨?_, induction tiling.2⟩
      intro tile member
      have within := tiling.2.inside member
      have starts := tiling.1
      exact .inr (.inr (.inl (by omega)))

/-- Tiles of a tile take its place. -/
theorem replace {before after parts : List Extent} {tile : Extent}
    (tiling : Tiles start (before ++ tile :: after) stop)
    (cut : Tiles tile.start parts (tile.start + tile.length)) :
    Tiles start (before ++ (parts ++ after)) stop := by
  obtain ⟨middle, left, starts, right⟩ := tiling.split
  rw [starts] at cut
  exact left.append (cut.append right)

end Tiles

/-- Every block is tiled, and the tiles of all blocks are the given ones. -/
def Tiled (blocks tiles : List Extent) : Prop :=
  ∃ tilings : List (List Extent),
    List.Forall₂ (fun block tiling => Tiles block.start tiling (block.start + block.length))
      blocks tilings ∧
    tilings.flatten.Perm tiles

namespace Tiled

variable {blocks tiles other : List Extent}

theorem nil : Tiled [] [] := ⟨[], .nil, .refl _⟩

theorem perm (tiled : Tiled blocks tiles) (same : tiles.Perm other) : Tiled blocks other := by
  obtain ⟨tilings, each, all⟩ := tiled
  exact ⟨tilings, each, all.trans same⟩

theorem cons (tiled : Tiled blocks tiles) {block : Extent} {parts : List Extent}
    (tiling : Tiles block.start parts (block.start + block.length)) :
    Tiled (block :: blocks) (parts ++ tiles) := by
  obtain ⟨tilings, each, all⟩ := tiled
  exact ⟨parts :: tilings, .cons tiling each, all.append_left parts⟩

/-- Tiles of a tile take its place. -/
theorem replace {tile : Extent} {rest parts : List Extent}
    (tiled : Tiled blocks (tile :: rest))
    (cut : Tiles tile.start parts (tile.start + tile.length)) :
    Tiled blocks (parts ++ rest) := by
  obtain ⟨tilings, each, all⟩ := tiled
  have member : tile ∈ tilings.flatten := all.mem_iff.mpr List.mem_cons_self
  -- one of the tilings has the tile, and the others stay
  have exchanged : ∃ (changed : List (List Extent)) (remaining : List Extent),
      List.Forall₂ (fun block tiling => Tiles block.start tiling (block.start + block.length))
        blocks changed ∧
      tilings.flatten.Perm (tile :: remaining) ∧
      changed.flatten.Perm (parts ++ remaining) := by
    clear all
    induction each with
    | nil => cases member
    | @cons block tiling blocks tilings tiles each induction =>
        rw [List.flatten_cons, List.mem_append] at member
        rcases member with here | there
        · obtain ⟨before, after, isSplit⟩ := List.append_of_mem here
          subst isSplit
          refine ⟨(before ++ (parts ++ after)) :: tilings,
            before ++ (after ++ tilings.flatten), .cons (tiles.replace cut) each, ?_, ?_⟩
          · rw [List.flatten_cons, List.append_assoc, List.cons_append]
            exact List.perm_middle
          · rw [List.flatten_cons, List.append_assoc, List.append_assoc]
            exact List.perm_append_comm_assoc _ _ _
        · obtain ⟨changed, remaining, forall₂, old, new⟩ := induction there
          refine ⟨tiling :: changed, tiling ++ remaining, .cons tiles forall₂, ?_, ?_⟩
          · rw [List.flatten_cons]
            exact (old.append_left tiling).trans List.perm_middle
          · rw [List.flatten_cons]
            exact (new.append_left tiling).trans (List.perm_append_comm_assoc _ _ _)
  obtain ⟨changed, remaining, forall₂, old, new⟩ := exchanged
  refine ⟨changed, forall₂, new.trans ?_⟩
  exact List.Perm.append_left parts (List.Perm.cons_inv (old.symm.trans all))

theorem inside (tiled : Tiled blocks tiles) {tile : Extent} (member : tile ∈ tiles) :
    ∃ block ∈ blocks, tile.Inside block := by
  obtain ⟨tilings, each, all⟩ := tiled
  have inFlat : tile ∈ tilings.flatten := all.mem_iff.mpr member
  clear all member
  induction each with
  | nil => cases inFlat
  | cons tiling _ induction =>
      rw [List.flatten_cons, List.mem_append] at inFlat
      rcases inFlat with here | there
      · exact ⟨_, List.mem_cons_self, tiling.inside here⟩
      · obtain ⟨block, isBlock, within⟩ := induction there
        exact ⟨block, List.mem_cons_of_mem _ isBlock, within⟩

/-- Tiles of blocks that are apart are apart. -/
theorem apart (tiled : Tiled blocks tiles) (blocksApart : blocks.Pairwise Apart) :
    tiles.Pairwise Apart := by
  obtain ⟨tilings, each, all⟩ := tiled
  rw [← Extent.pairwise_perm all]
  clear all
  induction each with
  | nil => exact .nil
  | @cons block tiling blocks tilings tiles each induction =>
      rw [List.pairwise_cons] at blocksApart
      rw [List.flatten_cons]
      refine List.pairwise_append.mpr ⟨tiles.apart, induction blocksApart.2, ?_⟩
      intro left leftMember right rightMember
      have rest : Tiled blocks tilings.flatten := ⟨tilings, each, .refl _⟩
      obtain ⟨other, isBlock, within⟩ := rest.inside rightMember
      exact (blocksApart.1 other isBlock).parts (tiles.inside leftMember) within

end Tiled

end MallocSurvey.Library.Extent

/-! # Rows of blocks

Blocks with a header each lie one after the other. A header knows the size of the payload
before it, the size of its own payload, and whether its block is the last one. -/

namespace MallocSurvey.Library

/-- The bytes that blocks with payloads of the sizes take. -/
def span (overhead : Nat) (sizes : List Nat) : Nat := (sizes.map (overhead + ·)).sum

section Span

variable {overhead : Nat}

@[simp] theorem span_nil : span overhead [] = 0 := rfl

@[simp] theorem span_cons (size : Nat) (sizes : List Nat) :
    span overhead (size :: sizes) = overhead + size + span overhead sizes := by
  simp [span]

@[simp] theorem span_append (first second : List Nat) :
    span overhead (first ++ second) = span overhead first + span overhead second := by
  simp [span]

theorem length_le_span (sizes : List Nat) : overhead * sizes.length ≤ span overhead sizes := by
  induction sizes with
  | nil => exact Nat.le_refl 0
  | cons size sizes induction =>
      rw [List.length_cons, Nat.mul_add, Nat.mul_one, span_cons]
      omega

end Span

/-- Where the headers of a row are. -/
def starts (overhead : Nat) : Nat → List Nat → List Nat
  | _, [] => []
  | start, size :: sizes => start :: starts overhead (start + (overhead + size)) sizes

section Starts

variable {overhead start : Nat} {sizes : List Nat}

theorem mem_starts {block : Nat} :
    block ∈ starts overhead start sizes ↔
      ∃ before size after, sizes = before ++ size :: after ∧
        block = start + span overhead before := by
  induction sizes generalizing start with
  | nil =>
      refine ⟨fun member => absurd member List.not_mem_nil, ?_⟩
      rintro ⟨before, size, after, split, _⟩
      simp at split
  | cons first sizes induction =>
      refine List.mem_cons.trans ⟨?_, ?_⟩
      · rintro (isFirst | member)
        · exact ⟨[], first, sizes, rfl, by simpa using isFirst⟩
        · obtain ⟨before, size, after, split, place⟩ := induction.mp member
          refine ⟨first :: before, size, after, by rw [split, List.cons_append], ?_⟩
          rw [place, span_cons, Nat.add_assoc]
      · rintro ⟨before, size, after, split, place⟩
        cases before with
        | nil => exact .inl (by simpa using place)
        | cons other before =>
            obtain ⟨rfl, rest⟩ := List.cons.inj split
            refine .inr (induction.mpr ⟨before, size, after, rest, ?_⟩)
            rw [place, span_cons, ← Nat.add_assoc]

theorem starts_inside {block : Nat} (member : block ∈ starts overhead start sizes) :
    start ≤ block ∧ block + overhead ≤ start + span overhead sizes := by
  obtain ⟨before, size, after, split, place⟩ := mem_starts.mp member
  rw [split, span_append, span_cons]
  omega

end Starts

/-- The headers of a row. The last block of a row that is not closed is followed by another. -/
def Row (overhead : Nat) (Holds : (block before size : Nat) → Bool → Prop) (closed : Bool) :
    (start before : Nat) → List Nat → Prop
  | _, _, [] => True
  | start, before, size :: sizes =>
      Holds start before size (closed && sizes.isEmpty) ∧
        Row overhead Holds closed (start + (overhead + size)) size sizes

namespace Row

variable {overhead : Nat} {Holds Holds' : Nat → Nat → Nat → Bool → Prop} {closed : Bool}
  {start before : Nat} {sizes first second : List Nat}

theorem append_iff :
    Row overhead Holds closed start before (first ++ second) ↔
      Row overhead Holds (closed && second.isEmpty) start before first ∧
        Row overhead Holds closed (start + span overhead first) (first.getLastD before) second := by
  induction first generalizing start before with
  | nil => simp [Row]
  | cons size first induction =>
      have place : start + (overhead + size) + span overhead first =
          start + span overhead (size :: first) := by
        rw [span_cons, Nat.add_assoc]
      have isLast : (closed && (first ++ second).isEmpty) =
          (closed && second.isEmpty && first.isEmpty) := by
        cases first <;> simp
      rw [List.cons_append, Row, Row, induction, place, isLast, List.getLastD_cons, and_assoc]

/-- A row with one of its blocks set apart. -/
theorem at_iff {size : Nat} :
    Row overhead Holds closed start before (first ++ size :: second) ↔
      Row overhead Holds false start before first ∧
        Holds (start + span overhead first) (first.getLastD before) size
          (closed && second.isEmpty) ∧
        Row overhead Holds closed (start + span overhead first + (overhead + size)) size
          second := by
  rw [append_iff, List.isEmpty_cons, Bool.and_false]
  exact Iff.rfl

/-- Only the headers of its blocks matter to a row. -/
theorem congr
    (same : ∀ block ∈ starts overhead start sizes, ∀ before size isLast,
      Holds block before size isLast → Holds' block before size isLast)
    (row : Row overhead Holds closed start before sizes) :
    Row overhead Holds' closed start before sizes := by
  induction sizes generalizing start before with
  | nil => trivial
  | cons size sizes induction =>
      refine ⟨same start List.mem_cons_self _ _ _ row.1, induction ?_ row.2⟩
      exact fun block member => same block (List.mem_cons_of_mem _ member)

end Row

/-- The blocks of a row tile what they take. -/
theorem tiles_starts {overhead start : Nat} {extent : Nat → Extent} {sizes : List Nat}
    {closed : Bool} {before : Nat} {Holds : Nat → Nat → Nat → Bool → Prop}
    (known : ∀ block before size isLast, Holds block before size isLast →
      extent block = ⟨block, overhead + size⟩)
    (row : Row overhead Holds closed start before sizes) :
    Extent.Tiles start ((starts overhead start sizes).map extent)
      (start + span overhead sizes) := by
  induction sizes generalizing start before with
  | nil => rfl
  | cons size sizes induction =>
      have isFirst := known _ _ _ _ row.1
      rw [span_cons, ← Nat.add_assoc, starts, List.map_cons, isFirst]
      exact ⟨rfl, induction row.2⟩

end MallocSurvey.Library
