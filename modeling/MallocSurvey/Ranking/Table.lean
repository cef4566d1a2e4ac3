import MallocSurvey.Library.OrderedMap
import Mathlib.Algebra.Order.Field.Rat
import Mathlib.Data.List.Pairwise
import Mathlib.Data.String.Basic
import Mathlib.Tactic.Linarith
import Mathlib.Tactic.NormNum

/-! # The benchmark driver

`benchmark_suite` of `test.cpp` and the comparison table that `main` prints.
Stage timings are rational numbers of seconds; the two associative containers
are traversed in ascending order. -/

namespace MallocSurvey.Ranking

open Library

/-- What the `creator2`/`deleter2` pair observes on its `int *x`. -/
structure Probe where
  /-- The fresh `int`, or `none` when the allocator returned a null pointer. -/
  created : Option Int
  /-- Whether the pointer is null once `deleter2` returns. -/
  cleared : Bool

/-- One call `benchmark_suite(mode, name, container)`, with the durations
`timing::now() - span` of the stages it may run. -/
structure Suite where
  mode : BitVec 32
  name : String
  single : ℚ
  multi : ℚ
  owner : ℚ
  singleProbe : Probe
  ownerProbe : Probe

/-- The tuple stored in `feat` for one allocator name. -/
structure Features where
  threadSafe : Bool
  safeDelete : Bool
  resetMemory : Bool
  avgSpeed : ℚ

/-- The global tables of `test.cpp`. -/
structure Report where
  feat : OrderedMap String Features
  ranking : OrderedMap ℚ (OrderedSet String)
  defaultAllocatorTime : ℚ

def Report.initial : Report where
  feat := .empty
  ranking := .empty
  defaultAllocatorTime := 1

def Features.cleared : Features where
  threadSafe := false
  safeDelete := false
  resetMemory := false
  avgSpeed := 0

/-- The checks made on the probed `int`; a null pointer throws `bad test`. -/
def Features.probe (features : Features) (probe : Probe) :
    Except String Features :=
  match probe.created with
  | none => .error "bad test"
  | some value => .ok { features with
      resetMemory := features.resetMemory || value == 0
      safeDelete := features.safeDelete || probe.cleared }

namespace Suite

/-- `mode & 1`. -/
def singleBit (suite : Suite) : Bool := suite.mode &&& 1 != 0

/-- `mode & 2`. -/
def multiBit (suite : Suite) : Bool := suite.mode &&& 2 != 0

/-- The accumulated `took`, in microseconds, before it is divided. -/
def took (suite : Suite) : ℚ :=
  (if suite.singleBit then suite.single * 1000000 else 0) +
    (if suite.multiBit then suite.multi * 1000000 + suite.owner * 1000000 else 0)

/-- The divisor chosen by the closing `if`/`else if`/`else`. -/
def divisor (suite : Suite) : ℚ :=
  if suite.mode &&& 3 != 0 then 3
  else if suite.multiBit then 2
  else 1

/-- The key under which the suite's name enters `ranking`. -/
def score (suite : Suite) : ℚ := suite.took / suite.divisor

def features (suite : Suite) : Except String Features := do
  let afterSingle ←
    if suite.singleBit then Features.cleared.probe suite.singleProbe
    else .ok Features.cleared
  let afterMulti ←
    if suite.multiBit then do
      let probed ← afterSingle.probe suite.ownerProbe
      .ok { probed with threadSafe := true }
    else .ok afterSingle
  return { afterMulti with avgSpeed := suite.score }

end Suite

/-- `benchmark_suite`: measure the selected stages and file the average. -/
def benchmarkSuite (report : Report) (suite : Suite) : Except String Report :=
  if suite.mode = 0 then
    .ok { report with
      feat := report.feat.alter suite.name fun _ => Features.cleared }
  else do
    let features ← suite.features
    return {
      feat := report.feat.alter suite.name fun _ => features
      ranking := report.ranking.alter suite.score fun names =>
        (names.getD .empty).insert suite.name
      defaultAllocatorTime :=
        if suite.name = "std::allocator" then suite.score
        else report.defaultAllocatorTime }

/-- The suites of `main`, in the order they are run. -/
def runSuites (suites : List Suite) : Except String Report :=
  suites.foldlM benchmarkSuite Report.initial

/-- One printed line of the comparison table. -/
structure Row where
  position : Nat
  ordinal : String
  name : String
  features : Features

/-- The suffix printed after a position (`11st` included). -/
def ordinalSuffix (position : Nat) : String :=
  if position % 10 = 1 then "st)"
  else if position % 10 = 2 then "nd)"
  else if position % 10 = 3 then "rd)"
  else "th)"

namespace Report

/-- The nested traversal of `ranking`: ascending scores, and ascending names
among equal scores. -/
def ranked (report : Report) : List (ℚ × String) :=
  report.ranking.entries.flatMap fun entry =>
    entry.2.keys.map fun name => (entry.1, name)

def row (report : Report) (name : String) (position : Nat) : Row where
  position := position
  ordinal := ordinalSuffix position
  name := name
  features := (report.feat.find? name).getD Features.cleared

/-- The rows that `main` prints. -/
def table (report : Report) : List Row :=
  (report.ranked.map Prod.snd).zipIdx 1 |>.map fun entry =>
    report.row entry.1 entry.2

theorem table_names (report : Report) :
    report.table.map Row.name = report.ranked.map Prod.snd := by
  simp only [table, row, List.map_map]
  exact List.zipIdx_map_fst 1 _

end Report

namespace Suite

/-- A run entry is a suite whose mode is not zero. -/
def Ran (suite : Suite) : Prop := suite.mode ≠ 0

instance (suite : Suite) : Decidable suite.Ran :=
  inferInstanceAs (Decidable (suite.mode ≠ 0))

/-- The number of stages the suite runs: one for the single bit and two, the
`multi` and the `owner` stage, for the multi bit. -/
def stages (suite : Suite) : Nat :=
  (if suite.singleBit then 1 else 0) + (if suite.multiBit then 2 else 0)

/-- The mean time of the stages that the suite actually ran. -/
def meanStageTime (suite : Suite) : ℚ := suite.took / suite.stages

theorem mode_and_three (suite : Suite) :
    (suite.mode &&& 3 != 0) = (suite.singleBit || suite.multiBit) := by
  rw [singleBit, multiBit, Bool.eq_iff_iff]
  simp only [bne_iff_ne, ne_eq, Bool.or_eq_true]
  constructor
  · intro nonzero
    by_contra both
    push Not at both
    apply nonzero
    have split : (3 : BitVec 32) = 1 ||| 2 := by decide
    rw [split, BitVec.and_or_distrib_left, both.1, both.2]
    rfl
  · rintro (bit | bit) zero <;> apply bit
    · have part : (1 : BitVec 32) = 3 &&& 1 := by decide
      rw [part, ← BitVec.and_assoc, zero]
      rfl
    · have part : (2 : BitVec 32) = 3 &&& 2 := by decide
      rw [part, ← BitVec.and_assoc, zero]
      rfl

/-- Whatever stages ran, the score is a third of the total. -/
theorem score_eq (suite : Suite) : suite.score = suite.took / 3 := by
  rw [score, divisor, mode_and_three]
  cases single : suite.singleBit <;> cases multi : suite.multiBit <;>
    simp [took, single, multi]

theorem score_lt_iff (first second : Suite) :
    first.score < second.score ↔ first.took < second.took := by
  rw [score_eq, score_eq]
  exact div_lt_div_iff_of_pos_right (by norm_num)

theorem score_inj (first second : Suite) :
    first.score = second.score ↔ first.took = second.took := by
  rw [score_eq, score_eq]
  exact div_left_inj' (by norm_num)

end Suite

end MallocSurvey.Ranking

/-! # Soundness of the comparison table

The table is sorted by the score that `benchmark_suite` files, which is a third
of the total time whatever stages ran. Its order is therefore the order of the
mean stage times exactly for suites whose totals and means agree. -/

namespace MallocSurvey.Ranking

open Library

/-! ## What a run files -/

/-- `name` stands in the set stored under `score`. -/
def Report.Files (report : Report) (score : ℚ) (name : String) : Prop :=
  ∃ names, report.ranking.find? score = some names ∧ name ∈ names.keys

theorem Report.mem_ranked_iff (report : Report) (score : ℚ) (name : String) :
    (score, name) ∈ report.ranked ↔ report.Files score name := by
  simp only [Report.ranked, Report.Files, List.mem_flatMap, Prod.exists,
    OrderedMap.mem_entries_iff, List.mem_map, Prod.mk.injEq]
  constructor
  · rintro ⟨_, names, stored, _, member, rfl, rfl⟩
    exact ⟨names, stored, member⟩
  · rintro ⟨names, stored, member⟩
    exact ⟨score, names, stored, name, member, rfl, rfl⟩

theorem not_files_initial (score : ℚ) (name : String) :
    ¬ Report.initial.Files score name := by
  rintro ⟨names, stored, _⟩
  simp [Report.initial] at stored

/-- The only change one call makes to `ranking`. -/
theorem benchmarkSuite_files {report next : Report} {suite : Suite}
    (finished : benchmarkSuite report suite = .ok next) (score : ℚ)
    (name : String) :
    next.Files score name ↔
      report.Files score name ∨
        (suite.Ran ∧ suite.score = score ∧ suite.name = name) := by
  unfold benchmarkSuite at finished
  by_cases skipped : suite.mode = 0
  · rw [if_pos skipped] at finished
    cases finished
    simp [Report.Files, Suite.Ran, skipped]
  · rw [if_neg skipped] at finished
    have ran : suite.Ran := skipped
    cases measured : suite.features with
    | error message => simp [measured, bind, Except.bind] at finished
    | ok features =>
        simp only [measured, bind, Except.bind, pure, Except.pure,
          Except.ok.injEq] at finished
        subst finished
        by_cases same : score = suite.score
        · subst same
          have filed : (∃ names, report.ranking.find? suite.score = some names ∧
              name ∈ names.keys) ↔
              name ∈ ((report.ranking.find? suite.score).getD .empty).keys := by
            cases report.ranking.find? suite.score <;> simp
          simp only [Report.Files, OrderedMap.find?_alter_self, Option.some.injEq,
            exists_eq_left', OrderedMap.mem_keys_insert, filed, ran, true_and]
          rw [or_comm, eq_comm]
        · simp [Report.Files, OrderedMap.find?_alter_of_ne _ same, Ne.symm same]

theorem foldlM_files {suites : List Suite} :
    ∀ {report final : Report}, suites.foldlM benchmarkSuite report = .ok final →
      ∀ score name, final.Files score name ↔
        report.Files score name ∨
          ∃ suite ∈ suites, suite.Ran ∧ suite.score = score ∧
            suite.name = name := by
  induction suites with
  | nil =>
      intro report final finished score name
      cases finished
      simp
  | cons head rest induction =>
      intro report final finished score name
      rw [List.foldlM_cons] at finished
      cases stepped : benchmarkSuite report head with
      | error message => simp [stepped, bind, Except.bind] at finished
      | ok next =>
          simp only [stepped, bind, Except.bind] at finished
          rw [induction finished, benchmarkSuite_files stepped]
          simp only [List.exists_mem_cons_iff, or_assoc]

/-- After all calls the table holds exactly the entries that ran, each under
its own score. -/
theorem runSuites_mem_ranked {suites : List Suite} {report : Report}
    (finished : runSuites suites = .ok report) (score : ℚ) (name : String) :
    (score, name) ∈ report.ranked ↔
      ∃ suite ∈ suites, suite.Ran ∧ suite.score = score ∧ suite.name = name := by
  rw [Report.mem_ranked_iff, foldlM_files finished]
  simp [not_files_initial]

/-! ## The traversal order -/

/-- Ascending scores, and ascending names among equal scores. -/
def Precedes (first second : ℚ × String) : Prop :=
  first.1 < second.1 ∨ first.1 = second.1 ∧ first.2 < second.2

theorem Precedes.asymm {first second : ℚ × String}
    (forward : Precedes first second) : ¬ Precedes second first := by
  rintro (below | ⟨equal, below⟩) <;> rcases forward with less | ⟨same, less⟩
  · exact below.asymm less
  · exact below.ne' same
  · exact less.ne' equal
  · exact below.asymm less

theorem Precedes.ne {first second : ℚ × String}
    (forward : Precedes first second) : first ≠ second := fun equal =>
  forward.asymm (equal ▸ forward)

theorem Report.ranked_precedes (report : Report) :
    report.ranked.Pairwise Precedes := by
  unfold Report.ranked
  rw [List.pairwise_flatMap]
  constructor
  · intro entry _
    rw [List.pairwise_map]
    exact entry.2.keys_ascending.imp fun below => .inr ⟨rfl, below⟩
  · refine report.ranking.ascending.imp ?_
    intro earlier later below first firstMem second secondMem
    rcases List.mem_map.mp firstMem with ⟨_, _, rfl⟩
    rcases List.mem_map.mp secondMem with ⟨_, _, rfl⟩
    exact .inl below

/-! ## Soundness -/

/-- The property of a ranking table: every entry that ran is listed exactly
once, and an entry with a lower mean stage time is never listed after one with
a higher mean. -/
structure SoundTable (suites : List Suite) (names : List String) : Prop where
  listed : names.Perm ((suites.filter fun suite => suite.Ran).map Suite.name)
  ordered : names.Pairwise fun earlier later =>
    ∀ first ∈ suites, ∀ second ∈ suites,
      first.name = earlier → second.name = later →
      0 < first.stages → 0 < second.stages →
      first.meanStageTime ≤ second.meanStageTime

/-- Entries that ran different numbers of stages, and whose means differ, also
differ that way in total time, or tie in total time and compare by name. -/
def Comparable (suites : List Suite) : Prop :=
  ∀ first ∈ suites, ∀ second ∈ suites,
    0 < first.stages → 0 < second.stages → first.stages ≠ second.stages →
    first.meanStageTime < second.meanStageTime →
    first.took < second.took ∨
      first.took = second.took ∧ first.name < second.name

theorem Suite.ran_of_stages_pos {suite : Suite} (positive : 0 < suite.stages) :
    suite.Ran := by
  intro zero
  simp [Suite.stages, Suite.singleBit, Suite.multiBit, zero] at positive

theorem Suite.meanStageTime_lt_iff_of_stages_eq {first second : Suite}
    (positive : 0 < first.stages) (same : first.stages = second.stages) :
    first.meanStageTime < second.meanStageTime ↔ first.took < second.took := by
  unfold Suite.meanStageTime
  rw [← same]
  exact div_lt_div_iff_of_pos_right (by exact_mod_cast positive)

section

variable {suites : List Suite} {report : Report}

/-- Distinct names identify the suite behind a name. -/
theorem eq_of_name_eq (distinct : (suites.map Suite.name).Nodup)
    {first second : Suite} (firstMem : first ∈ suites)
    (secondMem : second ∈ suites) (same : first.name = second.name) :
    first = second :=
  List.inj_on_of_nodup_map distinct firstMem secondMem same

theorem ranked_names_nodup (distinct : (suites.map Suite.name).Nodup)
    (finished : runSuites suites = .ok report) :
    (report.ranked.map Prod.snd).Nodup := by
  refine List.Nodup.map_on ?_ (report.ranked_precedes.imp Precedes.ne)
  rintro ⟨score, name⟩ member ⟨otherScore, otherName⟩ otherMember same
  rcases (runSuites_mem_ranked finished _ _).mp member with
    ⟨suite, suiteMem, _, rfl, rfl⟩
  rcases (runSuites_mem_ranked finished _ _).mp otherMember with
    ⟨other, otherMem, _, rfl, rfl⟩
  rw [eq_of_name_eq distinct suiteMem otherMem same]

theorem ranked_names_perm (distinct : (suites.map Suite.name).Nodup)
    (finished : runSuites suites = .ok report) :
    (report.ranked.map Prod.snd).Perm
      ((suites.filter fun suite => suite.Ran).map Suite.name) := by
  have filteredNodup :
      ((suites.filter fun suite => suite.Ran).map Suite.name).Nodup :=
    distinct.sublist (List.filter_sublist.map Suite.name)
  refine (List.perm_ext_iff_of_nodup (ranked_names_nodup distinct finished)
    filteredNodup).mpr fun name => ?_
  simp only [List.mem_map, Prod.exists, exists_eq_right,
    runSuites_mem_ranked finished, List.mem_filter, decide_eq_true_eq]
  constructor
  · rintro ⟨_, suite, member, ran, _, named⟩
    exact ⟨suite, ⟨member, ran⟩, named⟩
  · rintro ⟨suite, ⟨member, ran⟩, named⟩
    exact ⟨suite.score, suite, member, ran, rfl, named⟩

/-- Position in the table is the order of scores with names breaking ties. -/
theorem ranked_pairwise_of_forall {related : ℚ × String → ℚ × String → Prop}
    (ordered : report.ranked.Pairwise related) {first second : ℚ × String}
    (firstMem : first ∈ report.ranked) (secondMem : second ∈ report.ranked)
    (precedes : Precedes first second) : related first second := by
  have both : report.ranked.Pairwise fun left right =>
      (Precedes left right ∧ related left right) ∨
        (Precedes right left ∧ related right left) :=
    (report.ranked_precedes.and ordered).imp Or.inl
  have symmetric : Std.Symm fun left right : ℚ × String =>
      (Precedes left right ∧ related left right) ∨
        (Precedes right left ∧ related right left) := ⟨fun _ _ => Or.symm⟩
  rcases both.forall firstMem secondMem precedes.ne with ⟨_, holds⟩ | ⟨back, _⟩
  · exact holds
  · exact absurd back precedes.asymm

theorem SoundTable.comparable (distinct : (suites.map Suite.name).Nodup)
    (finished : runSuites suites = .ok report)
    (sound : SoundTable suites (report.table.map Row.name)) :
    Comparable suites := by
  intro first firstMem second secondMem firstRan secondRan _ meanBelow
  have different : first.name ≠ second.name := by
    intro same
    rw [eq_of_name_eq distinct firstMem secondMem same] at meanBelow
    exact lt_irrefl _ meanBelow
  have firstListed : (first.score, first.name) ∈ report.ranked :=
    (runSuites_mem_ranked finished _ _).mpr
      ⟨first, firstMem, Suite.ran_of_stages_pos firstRan, rfl, rfl⟩
  have secondListed : (second.score, second.name) ∈ report.ranked :=
    (runSuites_mem_ranked finished _ _).mpr
      ⟨second, secondMem, Suite.ran_of_stages_pos secondRan, rfl, rfl⟩
  by_contra unordered
  have reversed :
      Precedes (second.score, second.name) (first.score, first.name) := by
    rw [not_or, not_and, not_lt] at unordered
    rcases lt_or_eq_of_le unordered.1 with below | equal
    · exact .inl ((Suite.score_lt_iff second first).mpr below)
    · exact .inr ⟨(Suite.score_inj second first).mpr equal,
        lt_of_le_of_ne (not_lt.mp (unordered.2 equal.symm)) different.symm⟩
  have ordered := sound.ordered
  rw [Report.table_names, List.pairwise_map] at ordered
  have meanLe := ranked_pairwise_of_forall ordered secondListed firstListed
    reversed second secondMem first firstMem rfl rfl secondRan firstRan
  exact absurd meanBelow (not_lt.mpr meanLe)

theorem Comparable.precedes_meanStageTime (comparable : Comparable suites)
    {first second : Suite} (firstMem : first ∈ suites)
    (secondMem : second ∈ suites) (firstRan : 0 < first.stages)
    (secondRan : 0 < second.stages)
    (precedes : Precedes (first.score, first.name) (second.score, second.name)) :
    first.meanStageTime ≤ second.meanStageTime := by
  by_contra above
  rw [not_le] at above
  have reversed :
      Precedes (second.score, second.name) (first.score, first.name) := by
    by_cases same : second.stages = first.stages
    · exact .inl ((Suite.score_lt_iff second first).mpr
        ((Suite.meanStageTime_lt_iff_of_stages_eq secondRan same).mp above))
    · rcases comparable second secondMem first firstMem secondRan firstRan same
        above with below | ⟨equal, below⟩
      · exact .inl ((Suite.score_lt_iff second first).mpr below)
      · exact .inr ⟨(Suite.score_inj second first).mpr equal, below⟩
  exact precedes.asymm reversed

end

/-! ## Suites with different stage counts -/

def plainProbe : Probe where
  created := some 1
  cleared := false

def singleSuite (name : String) (seconds : ℚ) : Suite where
  mode := 1
  name := name
  single := seconds
  multi := 0
  owner := 0
  singleProbe := plainProbe
  ownerProbe := plainProbe

def allSuite (name : String) (seconds : ℚ) : Suite where
  mode := BitVec.allOnes 32
  name := name
  single := seconds
  multi := seconds
  owner := seconds
  singleProbe := plainProbe
  ownerProbe := plainProbe

@[simp] theorem singleSuite_bits (name : String) (seconds : ℚ) :
    (singleSuite name seconds).singleBit = true ∧
      (singleSuite name seconds).multiBit = false := by
  simp [Suite.singleBit, Suite.multiBit, singleSuite]

@[simp] theorem allSuite_bits (name : String) (seconds : ℚ) :
    (allSuite name seconds).singleBit = true ∧
      (allSuite name seconds).multiBit = true := by
  simp [Suite.singleBit, Suite.multiBit, allSuite]

theorem singleSuite_stages (name : String) (seconds : ℚ) :
    (singleSuite name seconds).stages = 1 := by
  simp [Suite.stages]

theorem singleSuite_took (name : String) (seconds : ℚ) :
    (singleSuite name seconds).took = seconds * 1000000 := by
  simp only [Suite.took, singleSuite_bits, if_true, Bool.false_eq_true, if_false,
    add_zero]
  rfl

theorem allSuite_stages (name : String) (seconds : ℚ) :
    (allSuite name seconds).stages = 3 := by
  simp [Suite.stages]

theorem allSuite_took (name : String) (seconds : ℚ) :
    (allSuite name seconds).took =
      seconds * 1000000 + (seconds * 1000000 + seconds * 1000000) := by
  simp only [Suite.took, allSuite_bits, if_true]
  rfl

/-- `tlsf` takes four seconds for its only stage and is listed before
`jemalloc`, which takes three seconds for each of its three stages. -/
def misrankedSuites : List Suite :=
  [allSuite "jemalloc" 3, singleSuite "tlsf" 4]

/-- Two suites that ran the same stages are ranked by their means. -/
def wellRankedSuites : List Suite :=
  [singleSuite "tlsf" 4, singleSuite "ltalloc" 1]

end MallocSurvey.Ranking
