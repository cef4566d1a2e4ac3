import Mathlib.Data.List.Basic
import Mathlib.Data.List.Nodup
import Mathlib.Order.Defs.LinearOrder
import Mathlib.Order.Lattice

/-! # Ordered associative containers

Finite maps that are traversed in ascending key order, the traversal that
`std::map` and `std::set` document. The entry list is strictly ascending by
construction, so no later proof has to re-establish that keys are unique. -/

namespace MallocSurvey.Library

/-- A finite map whose entries are stored in strictly ascending key order. -/
structure OrderedMap (Key : Type u) (Value : Type v) [LinearOrder Key] where
  entries : List (Key × Value)
  ascending : entries.Pairwise fun earlier later => earlier.1 < later.1

/-- A finite set traversed in ascending order. -/
abbrev OrderedSet (Key : Type u) [LinearOrder Key] := OrderedMap Key Unit

namespace OrderedMap

variable {Key : Type u} {Value : Type v} [LinearOrder Key]

def empty : OrderedMap Key Value where
  entries := []
  ascending := .nil

def keys (map : OrderedMap Key Value) : List Key :=
  map.entries.map Prod.fst

/-- Rewrite the value stored under `key`; a missing key is first inserted, and
`change` then sees `none`. -/
def alterEntries (key : Key) (change : Option Value → Value) :
    List (Key × Value) → List (Key × Value)
  | [] => [(key, change none)]
  | (head, value) :: rest =>
      if key < head then (key, change none) :: (head, value) :: rest
      else if key = head then (key, change (some value)) :: rest
      else (head, value) :: alterEntries key change rest

theorem fst_mem_of_mem_alterEntries {key : Key} {change : Option Value → Value}
    {entries : List (Key × Value)} {entry : Key × Value}
    (member : entry ∈ alterEntries key change entries) :
    entry.1 = key ∨ entry ∈ entries := by
  induction entries with
  | nil => simp_all [alterEntries]
  | cons head rest induction =>
      rw [alterEntries] at member
      split_ifs at member with below same
      · rcases List.mem_cons.mp member with rfl | member
        · exact .inl rfl
        · exact .inr member
      · rcases List.mem_cons.mp member with rfl | member
        · exact .inl rfl
        · exact .inr (List.mem_cons_of_mem _ member)
      · rcases List.mem_cons.mp member with rfl | member
        · exact .inr List.mem_cons_self
        · exact (induction member).imp_right (List.mem_cons_of_mem _)

theorem alterEntries_ascending (key : Key) (change : Option Value → Value)
    {entries : List (Key × Value)}
    (ascending : entries.Pairwise fun earlier later => earlier.1 < later.1) :
    (alterEntries key change entries).Pairwise
      fun earlier later => earlier.1 < later.1 := by
  induction entries with
  | nil => simp [alterEntries]
  | cons head rest induction =>
      have parts := List.pairwise_cons.mp ascending
      rw [alterEntries]
      split_ifs with below same
      · refine List.pairwise_cons.mpr ⟨?_, ascending⟩
        intro entry member
        rcases List.mem_cons.mp member with rfl | member
        · exact below
        · exact below.trans (parts.1 entry member)
      · subst same
        exact List.pairwise_cons.mpr ⟨parts.1, parts.2⟩
      · refine List.pairwise_cons.mpr ⟨?_, induction parts.2⟩
        intro entry member
        rcases fst_mem_of_mem_alterEntries member with equal | member
        · rw [equal]
          exact lt_of_le_of_ne (not_lt.mp below) (Ne.symm same)
        · exact parts.1 entry member

/-- The container's `map[key] = change(map[key])`, with `change none` for a
key that was absent. -/
def alter (map : OrderedMap Key Value) (key : Key)
    (change : Option Value → Value) : OrderedMap Key Value where
  entries := alterEntries key change map.entries
  ascending := alterEntries_ascending key change map.ascending

def find? (map : OrderedMap Key Value) (key : Key) : Option Value :=
  (map.entries.find? fun entry => entry.1 = key).map Prod.snd

def insert (set : OrderedSet Key) (key : Key) : OrderedSet Key :=
  set.alter key fun _ => ()

@[simp] theorem find?_empty (key : Key) :
    (empty : OrderedMap Key Value).find? key = none := rfl

theorem find?_alterEntries_self (key : Key) (change : Option Value → Value)
    {entries : List (Key × Value)}
    (ascending : entries.Pairwise fun earlier later => earlier.1 < later.1) :
    ((alterEntries key change entries).find? fun entry => entry.1 = key).map
        Prod.snd =
      some (change ((entries.find? fun entry => entry.1 = key).map Prod.snd)) := by
  induction entries with
  | nil => simp [alterEntries]
  | cons head rest induction =>
      have parts := List.pairwise_cons.mp ascending
      rw [alterEntries]
      split_ifs with below same
      · have absent : ((head :: rest).find? fun entry => entry.1 = key) = none := by
          rw [List.find?_eq_none]
          intro entry member
          rcases List.mem_cons.mp member with rfl | member
          · simpa using below.ne'
          · simpa using (below.trans (parts.1 entry member)).ne'
        simp [absent]
      · simp [same]
      · simpa [Ne.symm same] using induction parts.2

theorem find?_alterEntries_of_ne {key other : Key} (different : other ≠ key)
    (change : Option Value → Value) (entries : List (Key × Value)) :
    ((alterEntries key change entries).find? fun entry => entry.1 = other) =
      entries.find? fun entry => entry.1 = other := by
  induction entries with
  | nil => simp [alterEntries, different.symm]
  | cons head rest induction =>
      rw [alterEntries]
      split_ifs with below same
      · simp [different.symm]
      · simp [← same, different.symm]
      · by_cases found : head.1 = other
        · subst found
          simp
        · simpa [found] using induction

@[simp] theorem find?_alter_self (map : OrderedMap Key Value) (key : Key)
    (change : Option Value → Value) :
    (map.alter key change).find? key = some (change (map.find? key)) :=
  find?_alterEntries_self key change map.ascending

theorem find?_alter_of_ne (map : OrderedMap Key Value) {key other : Key}
    (different : other ≠ key) (change : Option Value → Value) :
    (map.alter key change).find? other = map.find? other := by
  rw [find?, find?]
  exact congrArg _ (find?_alterEntries_of_ne different change map.entries)

/-- An entry of the traversal is exactly what a lookup of its key returns. -/
theorem mem_entries_iff (map : OrderedMap Key Value) (key : Key) (value : Value) :
    (key, value) ∈ map.entries ↔ map.find? key = some value := by
  rcases map with ⟨entries, ascending⟩
  simp only [find?]
  induction entries with
  | nil => simp
  | cons head rest induction =>
      have parts := List.pairwise_cons.mp ascending
      by_cases found : head.1 = key
      · have notLater : (key, value) ∉ rest := fun member =>
          (parts.1 _ member).ne found
        simp only [List.mem_cons, notLater, or_false, found, decide_true,
          List.find?_cons_of_pos, Option.map_some, Option.some.injEq]
        constructor
        · rintro rfl
          rfl
        · rintro rfl
          exact Prod.ext found.symm rfl
      · have notHead : (key, value) ≠ head := fun equal => found (by rw [← equal])
        simpa [notHead, found] using induction parts.2

theorem mem_keys_iff (map : OrderedMap Key Value) (key : Key) :
    key ∈ map.keys ↔ (map.find? key).isSome := by
  simp only [keys, List.mem_map, Prod.exists, exists_and_right, exists_eq_right,
    Option.isSome_iff_exists, mem_entries_iff]

@[simp] theorem keys_empty : (empty : OrderedMap Key Value).keys = [] := rfl

@[simp] theorem mem_keys_insert (set : OrderedSet Key) (key other : Key) :
    other ∈ (insert set key).keys ↔ other = key ∨ other ∈ set.keys := by
  rw [mem_keys_iff, mem_keys_iff, insert]
  by_cases same : other = key
  · simp [same]
  · simp [find?_alter_of_ne, same]

theorem keys_ascending (map : OrderedMap Key Value) :
    map.keys.Pairwise (· < ·) :=
  List.pairwise_map.mpr map.ascending

end OrderedMap

end MallocSurvey.Library
