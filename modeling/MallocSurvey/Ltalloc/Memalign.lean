import MallocSurvey.Ltalloc.Calls
import MallocSurvey.Ltalloc.SystemRuns

/-! # `ltmemalign`

The size is rounded up to a multiple of the alignment. The size of its class is then one
too, and blocks lie at multiples of their size before the end of a chunk. -/

namespace MallocSurvey.Ltalloc

open Library

/-! ## The request -/

/-- What `ltmemalign` asks `ltmalloc` for. -/
def memalignRequest (align size : Word) : Word := (size + (align - 1)) &&& ~~~(align - 1)

section Request

variable {align size : Word} {power : Nat} (isPower : align.toNat = 2 ^ power)

include isPower

theorem power_lt : power < 64 := by
  have inRange := align.isLt
  rw [isPower] at inRange
  exact (Nat.pow_lt_pow_iff_right (by decide)).mp inRange

theorem mask_toNat : (align - 1).toNat = 2 ^ power - 1 := by
  have positive := Nat.two_pow_pos power
  have inRange := align.isLt
  have one : (1 : Word).toNat = 1 := rfl
  rw [BitVec.toNat_sub, isPower, one]
  rw [isPower] at inRange
  omega

theorem memalignRequest_toNat : (memalignRequest align size).toNat =
    (size.toNat + (2 ^ power - 1)) % 2 ^ 64 / 2 ^ power * 2 ^ power := by
  have below := power_lt isPower
  have isSum : (size + (align - 1)).toNat = (size.toNat + (2 ^ power - 1)) % 2 ^ 64 := by
    rw [BitVec.toNat_add, mask_toNat isPower]
  apply Nat.eq_of_testBit_eq
  intro index
  rw [memalignRequest, BitVec.toNat_and, Nat.testBit_and, isSum, Nat.testBit_mul_two_pow]
  have inMask : (align - 1).getLsbD index = decide (index < power) := by
    rw [BitVec.getLsbD, mask_toNat isPower, Nat.testBit_two_pow_sub_one]
  have isMask : (~~~(align - 1)).toNat.testBit index = (decide (index < 64) &&
      !decide (index < power)) := by
    change (~~~(align - 1)).getLsbD index = _
    rw [BitVec.getLsbD_not, inMask]
  rw [isMask]
  generalize (size.toNat + (2 ^ power - 1)) % 2 ^ 64 = sum at isSum ⊢
  by_cases inWord : index < 64
  · by_cases low : index < power
    · simp [low]
    · have high : power ≤ index := Nat.le_of_not_lt low
      rw [Nat.testBit_div_two_pow, Nat.sub_add_cancel high]
      simp [inWord, low, high]
  · have outside : sum.testBit index = false := by
      apply Nat.testBit_lt_two_pow
      have sumLt := (size + (align - 1)).isLt
      rw [isSum] at sumLt
      exact sumLt.trans_le (Nat.pow_le_pow_right (by decide) (Nat.le_of_not_lt inWord))
    have high : power ≤ index := by omega
    rw [Nat.testBit_div_two_pow, Nat.sub_add_cancel high, outside]
    simp

/-- Rounded up, without an overflow. -/
theorem memalignRequest_noWrap (noWrap : size.toNat + 2 ^ power ≤ 2 ^ 64) :
    size.toNat ≤ (memalignRequest align size).toNat ∧
      2 ^ power ∣ (memalignRequest align size).toNat ∧
      (memalignRequest align size).toNat < size.toNat + 2 ^ power := by
  have positive := Nat.two_pow_pos power
  rw [memalignRequest_toNat isPower, Nat.mod_eq_of_lt (by omega)]
  have whole := Nat.div_add_mod (size.toNat + (2 ^ power - 1)) (2 ^ power)
  have rest := Nat.mod_lt (size.toNat + (2 ^ power - 1)) positive
  rw [Nat.mul_comm] at whole
  exact ⟨by omega, Nat.dvd_mul_left _ _, by omega⟩

/-- The sum wraps around to less than the alignment. -/
theorem memalignRequest_wraps (wraps : 2 ^ 64 < size.toNat + 2 ^ power) :
    (memalignRequest align size).toNat = 0 := by
  have positive := Nat.two_pow_pos power
  have inRange := size.isLt
  have below : 2 ^ power ≤ 2 ^ 64 :=
    Nat.pow_le_pow_right (by decide) (power_lt isPower).le
  rw [memalignRequest_toNat isPower]
  have isSum : (size.toNat + (2 ^ power - 1)) % 2 ^ 64 =
      size.toNat + (2 ^ power - 1) - 2 ^ 64 := by
    omega
  rw [isSum, Nat.div_eq_of_lt (by omega), Nat.zero_mul]

theorem memalignRequest_zero (isZero : size.toNat = 0) :
    (memalignRequest align size).toNat = 0 := by
  have positive := Nat.two_pow_pos power
  have below : 2 ^ power ≤ 2 ^ 64 :=
    Nat.pow_le_pow_right (by decide) (power_lt isPower).le
  rw [memalignRequest_toNat isPower, isZero, Nat.mod_eq_of_lt (by omega),
    Nat.div_eq_of_lt (by omega), Nat.zero_mul]

end Request

/-! ## Classes and alignments -/

/-- The size of the class of a multiple of the alignment is a multiple of it. -/
theorem align_dvd_classToSize {power size : Nat} (positive : 1 ≤ size)
    (inRange : size + 7 < 2 ^ 64) (aligned : 2 ^ power ∣ size) :
    2 ^ power ∣ classToSize (getSizeClass size) := by
  rcases Nat.lt_or_ge power 3 with small | large
  · have eight : 8 ∣ classToSize (getSizeClass size) :=
      Nat.dvd_of_mod_eq_zero (classToSize_mod positive inRange)
    have eightPower : 2 ^ power ∣ 2 ^ 3 := Nat.pow_dvd_pow 2 small.le
    exact eightPower.trans eight
  · obtain ⟨level, quarter, _, _, _, isSize, below, above⟩ :=
      classToSize_getSizeClass positive inRange
    have eightPower : 2 ^ 3 ∣ 2 ^ power := Nat.pow_dvd_pow 2 large
    have eight : size % 8 = 0 := Nat.mod_eq_zero_of_dvd (eightPower.trans aligned)
    have rounded : (size + 7) / 8 * 8 - 1 = size - 1 := by omega
    rw [rounded] at below above
    rw [isSize]
    rcases Nat.lt_or_ge level power with coarse | fine
    · -- the class has room for one multiple of the alignment, its end
      obtain ⟨count, isCount⟩ : 2 ^ level ∣ size :=
        (Nat.pow_dvd_pow 2 coarse.le).trans aligned
      have positiveLevel := Nat.two_pow_pos level
      rw [Nat.mul_comm] at isCount
      have atMost : count ≤ quarter + 1 := by
        refine Nat.le_of_mul_le_mul_right ?_ positiveLevel
        omega
      have atLeast : quarter < count := by
        refine Nat.lt_of_mul_lt_mul_right (a := 2 ^ level) ?_
        omega
      have isEnd : count = quarter + 1 := by omega
      rw [← isEnd, ← isCount]
      exact aligned
    · exact (Nat.pow_dvd_pow 2 fine).trans (Nat.dvd_mul_left _ _)

/-- Blocks lie at multiples of their size before the end of their chunk. -/
theorem chunkBlocks_aligned {sizeClass chunk block align : Nat} (geometry : Geometry sizeClass)
    (inChunks : align ∣ chunkSize) (aligned : chunk % chunkSize = 0)
    (inClass : align ∣ classToSize sizeClass)
    (member : block ∈ chunkBlocks sizeClass chunk) : align ∣ block := by
  obtain ⟨index, inRange, isBlock⟩ := mem_run.mp member
  have atChunk : align ∣ chunk := inChunks.trans (Nat.dvd_of_mod_eq_zero aligned)
  have fits := geometry.blocks_lt
  rw [isBlock]
  refine Nat.dvd_add ?_ (inClass.mul_left index)
  rw [tailStart]
  exact Nat.dvd_sub (Nat.dvd_add atChunk inChunks) (inClass.mul_left _)

/-! ## The call -/

/-- A block as `ltmemalign` should return it. -/
def AlignedBlock {threads : Nat} (state : State threads) (align size pointer : Nat) : Prop :=
  align ∣ pointer ∧ ∃ bytes, state.msize pointer = some bytes ∧ size ≤ bytes

/-- Every call that runs without the defects of the other functions keeps its promise. -/
def MemalignKeeps (align size : Word) : Prop :=
  ∀ (threads pageSize : Nat) (state next : State threads) (thread : Fin threads),
    PageSize pageSize → (system threads pageSize).Reachable Harmless state →
    Returns pageSize state thread (memalignRequest align size).toNat next →
    next.result thread = 0 ∨
      AlignedBlock next align.toNat size.toNat (next.result thread)

section Call

variable {threads pageSize : Nat} {state next : State threads} {thread : Fin threads}
  {align size : Word} {power : Nat}

theorem dvd_chunkSize (small : 2 ^ power ≤ chunkSize) : 2 ^ power ∣ chunkSize := by
  have isPower : chunkSize = 2 ^ 16 := rfl
  rw [isPower] at small ⊢
  exact Nat.pow_dvd_pow 2 ((Nat.pow_le_pow_iff_right (by decide)).mp small)

/-- A block of a class at a multiple of an alignment that divides the size of the class. -/
theorem Inv.aligned_live (inv : Inv pageSize state) {sizeClass block : Nat}
    (isLive : block ∈ (state.classes sizeClass).live) (small : 2 ^ power ≤ chunkSize)
    (inClass : 2 ^ power ∣ classToSize sizeClass) : 2 ^ power ∣ block := by
  have served := inv.served_of_live isLive
  obtain ⟨isChunk, _, member⟩ := inv.chunk_of_live isLive
  exact chunkBlocks_aligned served.geometry (dvd_chunkSize small) (Nat.mul_mod_left _ _)
    inClass member

theorem Inv.memalign_zero (inv : Inv pageSize next) (isPower : align.toNat = 2 ^ power)
    (isZero : size.toNat = 0) (small : align.toNat ≤ 8) (nowIdle : next.status thread = .idle)
    (serving : Serving (memalignRequest align size).toNat next thread) :
    next.result thread = 0 ∨
      AlignedBlock next align.toNat size.toNat (next.result thread) := by
  rw [memalignRequest_zero isPower isZero, Serving, nowIdle] at serving
  rcases serving with isNull | ⟨_, isLive⟩ | ⟨large, _⟩
  · exact .inl isNull
  · have isClass : classToSize (requestClass 0) = 2 ^ 3 := by decide
    rw [isPower] at small ⊢
    have eight : 2 ^ power ∣ 2 ^ 3 :=
      Nat.pow_dvd_pow 2 ((Nat.pow_le_pow_iff_right (by decide)).mp small)
    refine .inr ⟨inv.aligned_live isLive (small.trans (by decide)) ?_,
      classToSize (requestClass 0), inv.msize_live isLive, by rw [isZero]; omega⟩
    rw [isClass]
    exact eight
  · exact absurd large (by decide)

theorem Inv.memalign_positive (inv : Inv pageSize next) (isPower : align.toNat = 2 ^ power)
    (positive : 0 < size.toNat) (noWrap : size.toNat + align.toNat ≤ 2 ^ 64)
    (small : align.toNat ≤ chunkSize) (nowIdle : next.status thread = .idle)
    (serving : Serving (memalignRequest align size).toNat next thread) :
    next.result thread = 0 ∨
      AlignedBlock next align.toNat size.toNat (next.result thread) := by
  rw [isPower] at noWrap small ⊢
  obtain ⟨enough, aligned, below⟩ := memalignRequest_noWrap isPower noWrap
  generalize (memalignRequest align size).toNat = request at *
  rw [Serving, nowIdle] at serving
  rcases serving with isNull | ⟨isSmall, isLive⟩ | ⟨isLarge, inUse⟩
  · exact .inl isNull
  · have isClass : requestClass request = getSizeClass request := by
      rw [requestClass, if_neg (by omega)]
    have bound : maxBlockSize = 57344 := rfl
    rw [isClass] at isLive
    have inClass := align_dvd_classToSize (by omega) (by omega) aligned
    exact .inr ⟨inv.aligned_live isLive small inClass, _, inv.msize_live isLive,
      enough.trans (le_classToSize (by omega) (by omega))⟩
  · have region := inv.large _ inUse
    refine .inr ⟨(dvd_chunkSize small).trans (Nat.dvd_of_mod_eq_zero region.aligned), _,
      inv.msize_large inUse, enough.trans ?_⟩
    have nonempty : 0 < largeSize request := region.positive
    unfold largeSize chunkSize at nonempty ⊢
    omega

end Call

/-! ## Calls that break it -/

def blank : State 1 := .initial 1 (fun _ => 0) (fun _ => 0) (fun _ => none)

theorem blank_reached : (system 1 4096).Reachable Harmless blank := .init ⟨_, _, _, rfl⟩

/-- The second block of 8 bytes is not at a multiple of 16. -/
theorem secondByte_result : ((permittedRun blank
      [.malloc 0 0, .allocateChunk 0 chunkSize, .insertChunk 0]).bind fun state =>
    (state.malloc 0 0).map fun next => (state.status 0,
      (state.classes (requestClass 0)).central.freeList, next.status 0, next.result 0,
      next.msize (next.result 0))) = some (.idle, [], .idle, 65864, some 8) := by
  decide +kernel

theorem secondByte_returns : ∃ state next : State 1,
    (system 1 4096).Reachable Harmless state ∧ Returns 4096 state 0 0 next ∧
      next.result 0 = 65864 ∧ next.msize 65864 = some 8 := by
  obtain ⟨state, result, isNext⟩ := Option.bind_eq_some_iff.mp secondByte_result
  obtain ⟨next, stepped, outcome⟩ := Option.map_eq_some_iff.mp isNext
  simp only [Prod.mk.injEq] at outcome
  obtain ⟨isIdle, noLoose, nowIdle, isResult, isSize⟩ := outcome
  rw [isResult] at isSize
  have noLast : ∀ event ∈ [Event.malloc (0 : Fin 1) 0, .allocateChunk 0 chunkSize,
      .insertChunk 0], ∀ thread counted, event ≠ .giveBack thread counted := by
    intro event member thread counted isLast
    rw [isLast] at member
    simp at member
  refine ⟨state, next, permittedRun_reached (fun event member _ permitted =>
    permits_harmless permitted (noLast event member)) blank_reached result,
    ⟨⟨next, ⟨isIdle, by decide⟩, ?_, stepped, .refl⟩, nowIdle⟩, isResult, isSize⟩
  exact fun takes => absurd noLoose takes.2.2.2

/-- The system may return any multiple of the chunk size. -/
theorem large_returns {request : Nat} (aligned : chunkSize ∣ request)
    (large : maxBlockSize < request) (inRange : request + 2 * chunkSize ≤ 2 ^ 64) :
    ∃ next : State 1, Returns 4096 blank 0 request next ∧ next.result 0 = chunkSize := by
  have ok : PageSize 4096 := ⟨by decide, by decide⟩
  have inv := inv_reachable ok blank_reached
  have positive := chunkSize_pos
  have isLarge : largeSize request = request := by
    obtain ⟨count, isCount⟩ := aligned
    unfold largeSize chunkSize at *
    omega
  have isCall : Enabled 4096 blank (.malloc (0 : Fin 1) request) := ⟨rfl, by omega⟩
  have enabled : (system 1 4096).Enabled blank (.malloc 0 request) := isCall
  have harmless : Harmless blank (.malloc 0 request) := fun takes => absurd rfl takes.2.2.2
  obtain ⟨asked, _⟩ := @Inv.mallocLarge _ _ _ (0 : Fin 1) inv rfl _ large (by omega)
  change blank.malloc 0 request =
    some (blank.setStatus 0 (.allocatingLarge (largeSize request))) at asked
  rw [isLarge] at asked
  -- the system maps the region behind the first chunk, and then a page before it
  let waiting := blank.setStatus 0 (.allocatingLarge request)
  let registering := { waiting with
    mapped := (chunkSize, request) ::ₘ waiting.mapped }.setStatus 0 (.registering chunkSize request)
  let pageless := registering.setStatus 0 (.allocatingPage chunkSize request)
  let paged := { pageless with mapped := (4096, 4096) ::ₘ pageless.mapped }.setStatus 0
    (.registeringWithPage chunkSize request 4096)
  have waits : waiting.status 0 = .allocatingLarge request := setStatus_status ..
  have registers : registering.status 0 = .registering chunkSize request := setStatus_status ..
  have needsPage : pageless.status 0 = .allocatingPage chunkSize request := setStatus_status ..
  have hasPage : paged.status 0 = .registeringWithPage chunkSize request 4096 :=
    setStatus_status ..
  have fresh : IsFresh chunkSize chunkSize request waiting.mapped :=
    ⟨Nat.mod_self _, by decide, by unfold chunkSize at *; omega,
      fun _ member => absurd member (Multiset.notMem_zero _)⟩
  have freshPage : IsFresh 4096 4096 4096 pageless.mapped := by
    refine ⟨by decide, by decide, by decide, ?_⟩
    intro other member
    rw [Multiset.mem_singleton.mp (show other ∈ ({(chunkSize, request)} : Multiset _) from member)]
    have before : 4096 + 4096 ≤ chunkSize := by decide
    exact .inl before
  have largeStep : step 4096 waiting (.allocateLarge 0 chunkSize) = some registering := by
    change waiting.allocateLarge 0 chunkSize = _
    rw [State.allocateLarge, waits]
  have registerStep : step 4096 registering (.register 0) = some pageless := by
    change registering.register 0 4096 = _
    rw [State.register, registers]
    rfl
  have pageStep : step 4096 pageless (.allocatePage 0 4096) = some paged := by
    change pageless.allocatePage 0 4096 4096 = _
    rw [State.allocatePage, needsPage]
  have largeEnabled : (system 1 4096).Enabled waiting (.allocateLarge 0 chunkSize) :=
    ⟨request, waits, by omega, fresh⟩
  have registerEnabled : (system 1 4096).Enabled registering (.register 0) :=
    ⟨chunkSize, request, registers⟩
  have pageEnabled : (system 1 4096).Enabled pageless (.allocatePage 0 4096) :=
    ⟨⟨chunkSize, request, needsPage⟩, freshPage⟩
  have finishEnabled : (system 1 4096).Enabled paged (.registerWithPage 0) :=
    ⟨chunkSize, request, 4096, hasPage⟩
  have isWaiting : (system 1 4096).Reachable Harmless waiting :=
    blank_reached.step enabled harmless asked
  have isPaged : (system 1 4096).Reachable Harmless paged :=
    ((isWaiting.step largeEnabled trivial largeStep).step registerEnabled trivial
      registerStep).step pageEnabled trivial pageStep
  obtain ⟨next, finishStep, _, status, isResult, _⟩ :=
    (inv_reachable ok isPaged).registerWithPage ok hasPage
  refine ⟨next, ⟨⟨waiting, isCall, harmless, asked, ?_⟩, ?_⟩, isResult⟩
  · refine (((Machine.Leads.refl.step largeEnabled ⟨trivial, ?_⟩ largeStep).step registerEnabled
      ⟨trivial, ?_⟩ registerStep).step pageEnabled ⟨trivial, ?_⟩ pageStep).step finishEnabled
      ⟨trivial, ?_⟩ finishStep
    · rw [hasPage]
      exact fun idle => by cases idle
    · rw [waits]
      exact fun idle => by cases idle
    · rw [registers]
      exact fun idle => by cases idle
    · rw [needsPage]
      exact fun idle => by cases idle
  · rw [status, Function.update_self]

/-- `ltmemalign` keeps its promise for every state and all that the system may return
exactly for these arguments. -/
theorem memalign_keeps_iff {align size : Word} {power : Nat} (isPower : align.toNat = 2 ^ power) :
    MemalignKeeps align size ↔
      size.toNat = 0 ∧ align.toNat ≤ 8 ∨
        0 < size.toNat ∧ size.toNat + align.toNat ≤ 2 ^ 64 ∧ align.toNat ≤ chunkSize := by
  have inRange := size.isLt
  have alignLt := align.isLt
  constructor
  · intro keeps
    obtain ⟨state, next, reached, returns, isResult, isSize⟩ := secondByte_returns
    have ok : PageSize 4096 := ⟨by decide, by decide⟩
    rcases Nat.eq_zero_or_pos size.toNat with isZero | positive
    · refine .inl ⟨isZero, ?_⟩
      have promise := keeps 1 4096 state next 0 ok reached
      rw [memalignRequest_zero isPower isZero] at promise
      rcases promise returns with isNull | ⟨aligned, _⟩
      · rw [isResult] at isNull
        cases isNull
      · rw [isResult, isPower] at aligned
        rw [isPower]
        by_contra above
        have large : 4 ≤ power := by
          by_contra small
          have bound := Nat.pow_le_pow_right (show 0 < 2 by decide) (show power ≤ 3 by omega)
          omega
        have sixteen : 2 ^ 4 ∣ 65864 := (Nat.pow_dvd_pow 2 large).trans aligned
        exact absurd sixteen (by decide)
    · refine .inr ⟨positive, ?_⟩
      have noWrap : size.toNat + align.toNat ≤ 2 ^ 64 := by
        by_contra wraps
        have promise := keeps 1 4096 state next 0 ok reached
        have request : (memalignRequest align size).toNat = 0 :=
          memalignRequest_wraps isPower (by omega)
        rw [request] at promise
        rcases promise returns with isNull | ⟨_, bytes, usable, enough⟩
        · rw [isResult] at isNull
          cases isNull
        · rw [isResult, isSize] at usable
          have isBytes := Option.some.inj usable
          have half : align.toNat ≤ 2 ^ 63 := by
            rw [isPower]
            exact Nat.pow_le_pow_right (by decide) (by have := power_lt isPower; omega)
          omega
      refine ⟨noWrap, ?_⟩
      by_contra above
      obtain ⟨enough, aligned, _⟩ := memalignRequest_noWrap isPower (isPower ▸ noWrap)
      have isLarge : 17 ≤ power := by
        by_contra small
        have bound := Nat.pow_le_pow_right (show 0 < 2 by decide) (show power ≤ 16 by omega)
        have isSixteen : chunkSize = 2 ^ 16 := rfl
        omega
      have twice : 2 ^ 17 ∣ 2 ^ power := Nat.pow_dvd_pow 2 isLarge
      obtain ⟨count, isCount⟩ := twice.trans aligned
      have countPositive : 0 < count := by
        by_contra none
        rw [Nat.eq_zero_of_not_pos none, Nat.mul_zero] at isCount
        omega
      have inChunks : chunkSize ∣ (memalignRequest align size).toNat := by
        rw [isCount]
        exact (show chunkSize ∣ 2 ^ 17 by decide).mul_right count
      have bound := (memalignRequest align size).isLt
      have isMax : maxBlockSize = 57344 := rfl
      have isChunk : chunkSize = 65536 := rfl
      obtain ⟨next, returns, isResult⟩ := large_returns inChunks (by omega) (by omega)
      rcases keeps 1 4096 blank next 0 ok blank_reached returns with isNull | ⟨wrong, _⟩
      · rw [isResult] at isNull
        cases isNull
      · rw [isResult, isPower] at wrong
        exact absurd (twice.trans wrong) (by decide)
  · intro good threads pageSize state next thread ok reached returns
    obtain ⟨inv, serving⟩ := returns.serving ok (inv_reachable ok reached)
    rcases good with ⟨isZero, small⟩ | ⟨positive, noWrap, small⟩
    · exact inv.memalign_zero isPower isZero small returns.ends serving
    · exact inv.memalign_positive isPower positive noWrap small returns.ends serving

theorem memalign_keeps_sixteen : MemalignKeeps 16 100 :=
  (memalign_keeps_iff (show (16 : Word).toNat = 2 ^ 4 by decide)).mpr (by decide)

/-- The second empty request at a multiple of 16 gets a block at a multiple of 8 only. -/
theorem memalign_empty_misaligned : ¬ MemalignKeeps 16 0 := by
  intro keeps
  obtain ⟨state, next, reached, returns, isResult, _⟩ := secondByte_returns
  rcases keeps 1 4096 state next 0 ⟨by decide, by decide⟩ reached returns with
    isNull | ⟨aligned, _⟩
  · rw [isResult] at isNull
    cases isNull
  · rw [isResult] at aligned
    exact absurd aligned (by decide)

end MallocSurvey.Ltalloc
