import MallocSurvey.Winnie1.Pool

/-! # Splitting a block

A block of `2 ^ log` bytes becomes one block of every class from the wanted one to the
one below `log`, the larger ones behind the smaller, and another block of the wanted
class at the front. -/

namespace MallocSurvey.Winnie1

open Library

/-- The blocks behind the front one, the classes from `first` to the one below `log`. -/
def halves (start first : Nat) : Nat → List (FreeBlock Nat)
  | 0 => []
  | count + 1 => ⟨first, start + 2 ^ first, 2 ^ first⟩ :: halves start (first + 1) count

/-- All blocks that splitting makes. -/
def splitBlocks (start first log : Nat) : List (FreeBlock Nat) :=
  ⟨first, start, 2 ^ first⟩ :: halves start first (log - first)

theorem mem_halves {start first count : Nat} {block : FreeBlock Nat}
    (member : block ∈ halves start first count) :
    first ≤ block.bin ∧ block.bin < first + count ∧ block.room = 2 ^ block.bin ∧
      block.start = start + 2 ^ block.bin := by
  induction count generalizing first with
  | zero => cases member
  | succ count induction =>
      rcases List.mem_cons.mp member with isFirst | member
      · subst isFirst
        exact ⟨Nat.le_refl first, Nat.lt_add_of_pos_right (Nat.succ_pos count), rfl, rfl⟩
      · have later := induction member
        exact ⟨by omega, by omega, later.2.2⟩

/-- The halves fill the block behind the front one. -/
theorem halves_tiles (start first count : Nat) :
    Extent.Tiles (start + 2 ^ first) ((halves start first count).map freeExtent)
      (start + 2 ^ (first + count)) := by
  induction count generalizing first with
  | zero => exact rfl
  | succ count induction =>
      refine ⟨rfl, ?_⟩
      have rest := induction (first + 1)
      rw [Nat.pow_succ, Nat.mul_two, ← Nat.add_assoc, Nat.add_right_comm first] at rest
      exact rest

/-- Splitting covers the block exactly. -/
theorem splitBlocks_tiles {first log : Nat} (bounds : first ≤ log) (start : Nat) :
    Extent.Tiles start ((splitBlocks start first log).map freeExtent) (start + 2 ^ log) := by
  have rest := halves_tiles start first (log - first)
  rw [Nat.add_sub_of_le bounds] at rest
  exact ⟨rfl, rest⟩

theorem splitBlocks_ok {start first log : Nat} (large : 3 ≤ first) (bounds : first ≤ log)
    (inTable : first < maxListsNum) (top : log ≤ maxListsNum) :
    ∀ block ∈ splitBlocks start first log, FreeOk block := by
  intro block member
  rcases List.mem_cons.mp member with isFront | member
  · exact isFront ▸ ⟨rfl, large, inTable⟩
  · obtain ⟨lower, upper, room, _⟩ := mem_halves member
    exact ⟨room, by omega, by omega⟩

/-! ## The loop -/

/-- Where a split may put its blocks. -/
structure Room (start log : Nat) (free : List (FreeBlock Nat)) : Prop where
  nonzero : 0 < start
  bound : start + 2 ^ log ≤ 2 ^ 64
  fits : ∀ other ∈ free, other.start < 2 ^ 64
  apart : ∀ other ∈ free, Library.Apart start (2 ^ log) other.start 8

theorem eight_le_pow {log : Nat} (large : 3 ≤ log) : 8 ≤ 2 ^ log :=
  Nat.pow_le_pow_right Nat.two_pos large

theorem addBlockToList_spec {pool : Pool} {free : List (FreeBlock Nat)}
    (chained : Chained pool.memory pool.freeBlocksLists free) (block : FreeBlock Nat)
    (nonzero : block.start ≠ 0) (inTable : block.bin < maxListsNum)
    (fits : ∀ other ∈ free, other.start < 2 ^ 64)
    (apart : ∀ other ∈ free, Library.Apart block.start 8 other.start 8) :
    ∃ memory lists,
      pool.addBlockToList block.start block.bin =
        some { pool with memory := memory, freeBlocksLists := lists } ∧
      Chained memory lists (block :: free) ∧
      ∀ place, place < block.start ∨ block.start + 8 ≤ place →
        memory place = pool.memory place := by
  refine ⟨_, _, if_pos (Nat.lt_succ_of_lt inTable), chained.push nonzero fits apart, ?_⟩
  intro place outside
  exact storeBytes_outside outside

theorem pow_le_of_mem_halves {start first count : Nat} {block : FreeBlock Nat}
    (member : block ∈ halves start first count) : 2 ^ first ≤ 2 ^ block.bin :=
  Nat.pow_le_pow_right Nat.two_pos (mem_halves member).1

/-- The loop, at the class `i` with the larger ones on their lists. -/
theorem splitLoop_spec {start first log : Nat} (large : 3 ≤ first) (top : log ≤ maxListsNum)
    {free : List (FreeBlock Nat)} (room : Room start log free) (i : Nat) {pool : Pool}
    (started : first ≤ i + 1) (below : i < log)
    (chained : Chained pool.memory pool.freeBlocksLists
      (halves start (i + 1) (log - (i + 1)) ++ free)) :
    ∃ memory lists,
      splitLoop first i (start + 2 ^ i) pool =
        some { pool with memory := memory, freeBlocksLists := lists } ∧
      Chained memory lists (halves start first (log - first) ++ free) ∧
      ∀ place, place < start ∨ start + 2 ^ log ≤ place → memory place = pool.memory place := by
  induction i generalizing pool with
  | zero => omega
  | succ i induction =>
      unfold splitLoop
      by_cases finished : i + 1 < first
      · have isNext : i + 1 + 1 = first := by omega
        rw [isNext] at chained
        rw [if_neg (by omega)]
        exact ⟨pool.memory, pool.freeBlocksLists, rfl, chained, fun _ _ => rfl⟩
      · rw [if_pos (by omega)]
        have inside : 2 ^ (i + 1) + 2 ^ (i + 1) ≤ 2 ^ log := by
          rw [← Nat.mul_two, ← Nat.pow_succ]
          exact Nat.pow_le_pow_right Nat.two_pos below
        have word : 8 ≤ 2 ^ (i + 1) := eight_le_pow (by omega)
        have bound := room.bound
        obtain ⟨memory, lists, added, addedChained, frame⟩ :=
          addBlockToList_spec chained ⟨i + 1, start + 2 ^ (i + 1), 2 ^ (i + 1)⟩
            (by have := room.nonzero; dsimp only; omega) (by dsimp only; omega)
            (by
              intro other member
              rcases List.mem_append.mp member with isHalf | isFree
              · obtain ⟨_, upper, _, isStart⟩ := mem_halves isHalf
                have pow : 2 ^ other.bin < 2 ^ log :=
                  Nat.pow_lt_pow_right (by decide) (by omega)
                omega
              · exact room.fits other isFree)
            (by
              intro other member
              rcases List.mem_append.mp member with isHalf | isFree
              · have isStart := (mem_halves isHalf).2.2.2
                have pow := pow_le_of_mem_halves isHalf
                rw [Nat.pow_succ, Nat.mul_two] at pow
                exact .inl (by dsimp only; omega)
              · have apart := room.apart other isFree
                unfold Library.Apart at *
                dsimp only
                omega)
        dsimp only at added frame
        rw [added]
        have half : start + 2 ^ (i + 1) - 2 ^ i = start + 2 ^ i := by
          rw [Nat.pow_succ]
          omega
        have remaining : log - (i + 1) = (log - (i + 1 + 1)) + 1 := by omega
        have next := @induction { pool with memory := memory, freeBlocksLists := lists }
          (by omega) (by omega) (by rw [remaining]; exact addedChained)
        obtain ⟨memory', lists', looped, loopedChained, loopedFrame⟩ := next
        refine ⟨memory', lists', ?_, loopedChained, ?_⟩
        · simp only [Option.bind_eq_bind, Option.bind_some]
          rw [half]
          exact looped
        · intro place outside
          rw [loopedFrame place outside]
          exact frame place (by omega)

/-- `SplitBlockAndAddToLists` puts its blocks on their lists and writes to nothing
else. -/
theorem splitBlockAndAddToLists_spec {start first log : Nat} (large : 3 ≤ first)
    (bounds : first ≤ log) (inTable : first < maxListsNum) (top : log ≤ maxListsNum)
    {free : List (FreeBlock Nat)} (room : Room start log free) {pool : Pool}
    (chained : Chained pool.memory pool.freeBlocksLists free) :
    ∃ memory lists,
      pool.splitBlockAndAddToLists start first log =
        some { pool with memory := memory, freeBlocksLists := lists } ∧
      Chained memory lists (splitBlocks start first log ++ free) ∧
      ∀ place, place < start ∨ start + 2 ^ log ≤ place → memory place = pool.memory place := by
  have last : log - 1 + 1 = log := by omega
  obtain ⟨memory, lists, looped, loopedChained, loopedFrame⟩ :=
    splitLoop_spec large top room (log - 1) (by omega) (by omega)
      (by rw [last, Nat.sub_self]; exact chained)
  have word : 8 ≤ 2 ^ first := eight_le_pow large
  have grows : 2 ^ first ≤ 2 ^ log := Nat.pow_le_pow_right Nat.two_pos bounds
  have bound := room.bound
  obtain ⟨memory', lists', added, addedChained, frame⟩ :=
    @addBlockToList_spec { pool with memory := memory, freeBlocksLists := lists } _
      loopedChained ⟨first, start, 2 ^ first⟩ (Nat.ne_of_gt room.nonzero) inTable
      (by
        intro other member
        rcases List.mem_append.mp member with isHalf | isFree
        · obtain ⟨_, upper, _, isStart⟩ := mem_halves isHalf
          have pow : 2 ^ other.bin < 2 ^ log := Nat.pow_lt_pow_right (by decide) (by omega)
          omega
        · exact room.fits other isFree)
      (by
        intro other member
        rcases List.mem_append.mp member with isHalf | isFree
        · have isStart := (mem_halves isHalf).2.2.2
          have pow := pow_le_of_mem_halves isHalf
          exact .inl (by dsimp only; omega)
        · have apart := room.apart other isFree
          unfold Library.Apart at *
          dsimp only
          omega)
  refine ⟨memory', lists', ?_, addedChained, ?_⟩
  · unfold Pool.splitBlockAndAddToLists
    dsimp only
    rw [looped]
    exact added
  · intro place outside
    rw [← loopedFrame place outside]
    exact frame place (by dsimp only; omega)

end MallocSurvey.Winnie1
