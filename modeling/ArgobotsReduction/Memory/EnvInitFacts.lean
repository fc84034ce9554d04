import Mathlib.Tactic.IntervalCases
import ArgobotsReduction.Memory.EnvInit

/-!
# When the memory configuration is consistent

Most of the configuration is right in every environment: the values are clamped to half of
their types before they are rounded, so that no rounding wraps.  Two things are not bounded.
Four stacks of the size that is asked for may wrap, and then a page of the stack pool
holds none; and a page may hold more elements than an `int` can count.  The configuration is
consistent exactly when the values that are asked for stay below that
(`memory_configuration_consistent_iff`).
-/

set_option autoImplicit false

namespace ArgobotsReduction.Memory.EnvInit

open Utilities PageRequests

/-! ## What is asked for -/

/-- The value of a variable, or the default if it is unset or no number -/
def requested (parse : List Char → Except Code (ℕ × Bool)) (env : Env) (envSuffix : String)
    (defaultVal : ℕ) : ℕ :=
  match getAbtEnv env envSuffix with
  | none => defaultVal
  | some str =>
      match parse str.toList with
      | .error _ => defaultVal
      | .ok (val, _) => val

def requestedThreadStacksize (build : Build) (env : Env) : ℕ :=
  requested (atosz 8) env "THREAD_STACKSIZE" (defaultThreadStacksize build env)

def requestedMemPageSize (env : Env) : ℕ := requested (atosz 8) env "MEM_PAGE_SIZE" (2 * 1024 * 1024)

def requestedMemStackPageSize (env : Env) : ℕ :=
  requested (atosz 8) env "MEM_STACK_PAGE_SIZE" (8 * 1024 * 1024)

/-- Every value is clamped. -/
theorem loadEnv_eq (parse : List Char → Except Code (ℕ × Bool)) (env : Env) (envSuffix : String)
    (defaultVal minVal maxVal : ℕ) :
    loadEnv parse env envSuffix defaultVal minVal maxVal =
      max minVal (min maxVal (requested parse env envSuffix defaultVal)) := by
  rw [loadEnv, requested]
  cases getAbtEnv env envSuffix with
  | none => rfl
  | some str =>
      dsimp only
      cases parse str.toList with
      | error code => rfl
      | ok read => rfl

/-- **The values that are asked for are moderate**: four stacks do not wrap, a stack page has at
most `2 ^ 31` elements' worth of whole cache lines, and so has a page of descriptors, which is
rounded up to a power of two. -/
structure Moderate (build : Build) (env : Env) : Prop where
  threadStacksize : requestedThreadStacksize build env + build.cacheline ≤ 2 ^ 62
  memStackPageSize : min envSizeMax (requestedMemStackPageSize env) ≤
    2 ^ 31 * stackElemSize build
        (roundup 64 (max 512 (requestedThreadStacksize build env)) build.cacheline) +
      (sizeofPage - 1) / build.cacheline * build.cacheline
  memPageSize : requestedMemPageSize env ≤ 2 ^ (31 + Nat.log 2 build.descElemSize)

/-! ## The build -/

section Build

variable (build : Build)

theorem descElemSize_spec : 2 ^ build.cachelineLog ∣ build.descElemSize ∧
    build.sizeofYthread ≤ build.descElemSize ∧ sizeofPage + build.descElemSize ≤ 4096 := by
  have small := build.ythread_fits
  have line : 2 ^ build.cachelineLog ≤ 2 ^ 63 :=
    Nat.pow_le_pow_right Nat.two_pos (Nat.le_of_lt_succ build.cacheline_lt)
  have fits : build.sizeofYthread + 2 ^ build.cachelineLog ≤ 2 ^ 64 := by omega
  refine ⟨dvd_roundup build.cacheline_lt fits, le_roundup build.cacheline_lt fits, ?_⟩
  rw [Nat.add_comm]
  exact build.desc_fits

theorem cachelineLog_le : build.cachelineLog ≤ 12 := by
  obtain ⟨multiple, large, small⟩ := descElemSize_spec build
  have positive := build.thread_le
  have line : 2 ^ build.cachelineLog ≤ 2 ^ 12 :=
    (Nat.le_of_dvd (by omega) multiple).trans (by omega)
  exact (Nat.pow_le_pow_iff_right Nat.one_lt_two).mp line

theorem cacheline_le : build.cacheline ≤ 4096 :=
  Nat.pow_le_pow_right Nat.two_pos (cachelineLog_le build)

/-- Sizes below the limit are rounded without a wrap. -/
theorem fits_of_le (val : ℕ) (small : val ≤ 2 ^ 63 + 1024) :
    val + 2 ^ build.cachelineLog ≤ 2 ^ 64 := by
  have line : 2 ^ build.cachelineLog ≤ 4096 := cacheline_le build
  omega

end Build

/-! ## Stacks -/

variable {build : Build} {env : Env}

theorem envGetThreadStacksize_eq (build : Build) (env : Env) :
    envGetThreadStacksize build env =
      roundup 64 (max 512 (min envSizeMax (requestedThreadStacksize build env)))
        (2 ^ build.cachelineLog) := by
  rw [envGetThreadStacksize, loadEnvSize, loadEnv_eq]
  rfl

/-- The stack size is right in every environment. -/
theorem envGetThreadStacksize_spec (build : Build) (env : Env) :
    build.cacheline ∣ envGetThreadStacksize build env ∧ 512 ≤ envGetThreadStacksize build env ∧
      envGetThreadStacksize build env ≤ 2 ^ 63 := by
  have limit : envSizeMax = 2 ^ 63 - 1 := rfl
  have fits := fits_of_le build
    (max 512 (min envSizeMax (requestedThreadStacksize build env))) (by omega)
  rw [envGetThreadStacksize_eq]
  refine ⟨dvd_roundup build.cacheline_lt fits, ?_, ?_⟩
  · exact Nat.le_trans (Nat.le_max_left ..) (le_roundup build.cacheline_lt fits)
  · have below := build.cacheline_lt
    exact roundup_le build.cacheline_lt fits (Nat.pow_dvd_pow 2 (by omega))
      (by omega)

/-- Four stacks do not wrap exactly when the size that is asked for is below the limit. -/
theorem envGetThreadStacksize_lt_iff : envGetThreadStacksize build env < 2 ^ 62 ↔
    requestedThreadStacksize build env + build.cacheline ≤ 2 ^ 62 := by
  have limit : envSizeMax = 2 ^ 63 - 1 := rfl
  have line := cacheline_le build
  have log := cachelineLog_le build
  have fits := fits_of_le build
    (max 512 (min envSizeMax (requestedThreadStacksize build env))) (by omega)
  have whole : 2 ^ build.cachelineLog ∣ 2 ^ 62 := Nat.pow_dvd_pow 2 (by omega)
  rw [envGetThreadStacksize_eq]
  constructor
  · intro less
    have most := le_roundup build.cacheline_lt fits
    have next : build.cacheline ≤ 2 ^ 62 - roundup 64 _ _ :=
      Nat.le_of_dvd (Nat.sub_pos_of_lt less)
        (Nat.dvd_sub whole (dvd_roundup build.cacheline_lt fits))
    omega
  · intro small
    have least := roundup_le build.cacheline_lt fits
      (Nat.dvd_sub whole (Nat.dvd_refl (2 ^ build.cachelineLog))) (by
        change _ ≤ 2 ^ 62 - build.cacheline
        omega)
    have positive := Nat.two_pow_pos build.cachelineLog
    omega

/-- Four stacks have room for a stack with its ULT and a cache line, and for the page.  With a line
of 512 bytes the second line is not always needed. -/
theorem room_for_stack {c threadStacksize ythread elem : ℕ} (line : c ≤ 12)
    (multiple : 2 ^ c ∣ threadStacksize) (large : 512 ≤ threadStacksize)
    (fits : ythread + sizeofPage ≤ 1024) (whole : 2 ^ c ∣ elem)
    (less : elem < threadStacksize + ythread + 2 ^ c) :
    sizeofPage + elem ≤ 4 * threadStacksize ∧
      (2 ^ (c + 1) ∣ elem → sizeofPage + (elem + 2 ^ c) ≤ 4 * threadStacksize) := by
  have page : sizeofPage = 56 := rfl
  rcases Nat.lt_or_ge 8 c with long | short
  · interval_cases c <;> omega
  · have small : 2 ^ c ≤ 2 ^ 8 := Nat.pow_le_pow_right Nat.two_pos short
    omega

/-- A stack with its ULT -/
theorem stackElemSize_spec {threadStacksize : ℕ} (multiple : build.cacheline ∣ threadStacksize)
    (large : 512 ≤ threadStacksize) (small : threadStacksize ≤ 2 ^ 63) :
    build.cacheline ∣ stackElemSize build threadStacksize ∧
      threadStacksize + build.sizeofYthread ≤ stackElemSize build threadStacksize ∧
      sizeofPage + stackElemSize build threadStacksize ≤ 4 * threadStacksize := by
  have ythread := build.ythread_fits
  have line : 2 ^ build.cachelineLog ≤ 4096 := cacheline_le build
  have stored : asBits 64 (threadStacksize + build.sizeofYthread) =
      threadStacksize + build.sizeofYthread := asBits_of_lt (by omega)
  have fits := fits_of_le build (threadStacksize + build.sizeofYthread) (by omega)
  have whole := dvd_roundup build.cacheline_lt fits
  have enough := le_roundup build.cacheline_lt fits
  have less := roundup_lt build.cacheline_lt fits
  rw [stackElemSize, stored, Build.cacheline]
  generalize roundup 64 (threadStacksize + build.sizeofYthread) (2 ^ build.cachelineLog) = elem at *
  obtain ⟨room, more⟩ := room_for_stack (cachelineLog_le build) multiple large ythread whole less
  have lines : 2 * 2 ^ build.cachelineLog = 2 ^ (build.cachelineLog + 1) := by
    rw [Nat.pow_succ, Nat.mul_comm]
  rw [lines, Nat.and_two_pow_sub_one_eq_mod]
  split_ifs with even
  · rw [asBits_of_lt (by omega)]
    exact ⟨Nat.dvd_add whole (Nat.dvd_refl _), by omega, more (Nat.dvd_of_mod_eq_zero even)⟩
  · exact ⟨whole, enough, room⟩

/-! ## Pages -/

/-- A page of four stacks that do not wrap -/
theorem memSpSize_spec (small : envGetThreadStacksize build env < 2 ^ 62) :
    IsLeast {m | 2 ^ build.cachelineLog ∣ m ∧ max (envGetThreadStacksize build env * 4)
      (min envSizeMax (requestedMemStackPageSize env)) ≤ m} (envInit build env).memSpSize := by
  obtain ⟨multiple, -, -⟩ := envGetThreadStacksize_spec build env
  have stored : asBits 64 (envGetThreadStacksize build env * 4) =
      envGetThreadStacksize build env * 4 := asBits_of_lt (by omega)
  have limit : envSizeMax = 2 ^ 63 - 1 := rfl
  have line : 2 ^ build.cachelineLog ≤ 4096 := cacheline_le build
  have log := cachelineLog_le build
  have whole : 2 ^ build.cachelineLog ∣ 2 ^ 62 := Nat.pow_dvd_pow 2 (by omega)
  have room : 2 ^ build.cachelineLog ≤ 2 ^ 62 - envGetThreadStacksize build env :=
    Nat.le_of_dvd (Nat.sub_pos_of_lt small) (Nat.dvd_sub whole multiple)
  have fits : max (envGetThreadStacksize build env * 4)
      (min envSizeMax (requestedMemStackPageSize env)) + 2 ^ build.cachelineLog ≤ 2 ^ 64 := by
    omega
  rw [envInit]
  dsimp only
  rw [loadEnvSize, loadEnv_eq, stored]
  exact roundup_isLeast build.cacheline_lt fits

/-- The number of headers in a bucket -/
theorem roundup_maxLocalBuckets {val : ℕ} (atLeast : maxLocalBuckets ≤ val)
    (small : val ≤ envUint32Max) :
    maxLocalBuckets ∣ roundup 32 val maxLocalBuckets ∧ 2 ≤ roundup 32 val maxLocalBuckets ∧
      roundup 32 val maxLocalBuckets ≤ 2 ^ 31 := by
  have limit : envUint32Max = 2 ^ 31 - 1 := rfl
  have fits : val + 2 ^ 1 ≤ 2 ^ 32 := by omega
  exact ⟨dvd_roundup (by decide) fits, Nat.le_trans atLeast (le_roundup (by decide) fits),
    roundup_le (by decide) fits (by decide) (by omega)⟩

/-- The most headers of a pool that a local pool keeps, as the environment says -/
theorem memMax_spec (env : Env) (name : String) (defaultVal : ℕ) :
    let memMax := roundup 32
      (loadEnvUint32 env name defaultVal maxLocalBuckets envUint32Max) maxLocalBuckets
    maxLocalBuckets ∣ memMax ∧ 2 ≤ memMax ∧ memMax ≤ 2 ^ 31 := by
  have two : maxLocalBuckets ≤ envUint32Max := by decide
  dsimp only
  rw [loadEnvUint32, loadEnv_eq]
  exact roundup_maxLocalBuckets (Nat.le_max_left ..) (by omega)

theorem memMaxStacks_spec (build : Build) (env : Env) :
    maxLocalBuckets ∣ (envInit build env).memMaxStacks ∧
      2 ≤ (envInit build env).memMaxStacks ∧ (envInit build env).memMaxStacks ≤ 2 ^ 31 :=
  memMax_spec env "MEM_MAX_NUM_STACKS" _

theorem memMaxDescs_spec (build : Build) (env : Env) :
    maxLocalBuckets ∣ (envInit build env).memMaxDescs ∧
      2 ≤ (envInit build env).memMaxDescs ∧ (envInit build env).memMaxDescs ≤ 2 ^ 31 :=
  memMax_spec env "MEM_MAX_NUM_DESCS" _

theorem keyTableSize_spec (env : Env) : ∃ k, envKeyTableSize env = 2 ^ k := by
  rw [envKeyTableSize, loadEnvUint32, loadEnv_eq]
  have limit : envUint32Max = 2 ^ 31 - 1 := rfl
  exact ⟨_, roundupPow2_eq (by omega) (by omega) (by decide)⟩

/-- A page of descriptors is the least power of two with enough whole cache lines. -/
theorem memPageSize_spec (build : Build) (env : Env) :
    ∃ size, IsLeast {m | 2 ^ build.cachelineLog ∣ m ∧
        max 4096 (min envSizeMax (requestedMemPageSize env)) ≤ m} size ∧ 0 < size ∧
      size ≤ 2 ^ 63 ∧ (envInit build env).memPageSize = 2 ^ Nat.clog 2 size := by
  have limit : envSizeMax = 2 ^ 63 - 1 := rfl
  have log := cachelineLog_le build
  have fits := fits_of_le build
    (max 4096 (min envSizeMax (requestedMemPageSize env))) (by omega)
  have least := roundup_isLeast build.cacheline_lt fits
  have enough := least.1.2
  have most := least.2 ⟨Nat.pow_dvd_pow 2 (by omega : build.cachelineLog ≤ 63), by omega⟩
  refine ⟨_, least, by omega, most, ?_⟩
  rw [envInit]
  dsimp only
  rw [loadEnvSize, loadEnv_eq]
  exact roundupPow2_eq (Nat.lt_of_lt_of_le (by omega) enough) most (by decide)

/-! ## Pools -/

theorem Pool.memExtraSize_eq {pool : Pool} (page : sizeofPage ≤ pool.pageSize)
    (size : pool.pageSize < 2 ^ 64) : pool.memExtraSize = pool.pageSize - sizeofPage := by
  have bytes : sizeofPage = 56 := rfl
  rw [Pool.memExtraSize, asBits]
  omega

/-- **A pool can be carved** when its pages hold a header, but fewer than `2 ^ 31`. -/
theorem Pool.carvable_of_lt {pool : Pool} (positive : 0 < pool.headerSize)
    (holds : sizeofPage + pool.headerSize ≤ pool.pageSize) (size : pool.pageSize < 2 ^ 64)
    (few : pool.pageSize ≤ 2 ^ 31 * pool.headerSize + (sizeofPage - 1)) : pool.Carvable := by
  have bytes : sizeofPage = 56 := rfl
  refine ⟨holds, ?_⟩
  rw [Pool.memExtraSize_eq (by omega) size]
  refine provides_of_lt positive (by omega) (Nat.div_pos (by omega) positive) ?_
  rw [Nat.div_lt_iff_lt_mul positive]
  omega

theorem Pool.carvable_iff {pool : Pool} (positive : 0 < pool.headerSize)
    (some : 1 ≤ pool.numHeadersPerBucket)
    (holds : sizeofPage + pool.headerSize ≤ pool.pageSize) (size : pool.pageSize ≤ 2 ^ 63) :
    pool.Carvable ↔ pool.pageSize ≤ 2 ^ 31 * pool.headerSize + (sizeofPage - 1) := by
  have bytes : sizeofPage = 56 := rfl
  constructor
  · rintro ⟨-, provides⟩
    rw [Pool.memExtraSize_eq (by omega) (by omega),
      provides_iff positive some (by omega), Nat.div_lt_iff_lt_mul positive] at provides
    omega
  · exact Pool.carvable_of_lt positive holds (by omega)

/-- A stack page holds a stack, and whether it holds too many depends on its size. -/
theorem stackPool_carvable_iff_memSpSize (small : envGetThreadStacksize build env < 2 ^ 62) :
    (stackPool build (envInit build env)).Carvable ↔
      (envInit build env).memSpSize ≤
        2 ^ 31 * stackElemSize build (envGetThreadStacksize build env) + (sizeofPage - 1) := by
  obtain ⟨multiple, large, -⟩ := envGetThreadStacksize_spec build env
  obtain ⟨whole, elem, room⟩ := stackElemSize_spec multiple large (by omega)
  have least := memSpSize_spec small
  have enough := least.1.2
  have positive : 0 < (stackPool build (envInit build env)).headerSize :=
    Nat.lt_of_lt_of_le (by omega) elem
  have some : 1 ≤ (stackPool build (envInit build env)).numHeadersPerBucket :=
    Nat.div_pos (memMaxStacks_spec build env).2.1 Nat.two_pos
  have holds : sizeofPage + (stackPool build (envInit build env)).headerSize ≤
      (envInit build env).memSpSize := room.trans (by omega)
  rcases Nat.lt_or_ge (2 ^ 63) (envInit build env).memSpSize with beyond | below
  · have limit : envSizeMax = 2 ^ 63 - 1 := rfl
    have log := cachelineLog_le build
    have larger : 2 ^ 63 < envGetThreadStacksize build env * 4 := by
      by_contra less
      have rounded := least.2
        ⟨Nat.pow_dvd_pow 2 (by omega : build.cachelineLog ≤ 63), by omega⟩
      omega
    have exact : (envInit build env).memSpSize ≤ envGetThreadStacksize build env * 4 :=
      least.2 ⟨Dvd.dvd.mul_right multiple 4, by omega⟩
    have fits : (envInit build env).memSpSize ≤ 2 ^ 31 *
        stackElemSize build (envGetThreadStacksize build env) + (sizeofPage - 1) := by
      omega
    exact iff_of_true (Pool.carvable_of_lt positive holds (Nat.lt_of_le_of_lt exact (by omega)) fits)
      fits
  · exact Pool.carvable_iff positive some holds below

/-- A stack page holds a stack, and not more than an `int` can count if not more is asked for. -/
theorem stackPool_carvable_iff (small : envGetThreadStacksize build env < 2 ^ 62) :
    (stackPool build (envInit build env)).Carvable ↔
      min envSizeMax (requestedMemStackPageSize env) ≤
        2 ^ 31 * stackElemSize build (envGetThreadStacksize build env) +
          (sizeofPage - 1) / build.cacheline * build.cacheline := by
  obtain ⟨multiple, large, -⟩ := envGetThreadStacksize_spec build env
  obtain ⟨whole, elem, -⟩ := stackElemSize_spec multiple large (by omega)
  -- The four stacks are below the limit, so that only the value that is asked for matters.
  refine (stackPool_carvable_iff_memSpSize small).trans
    ((isLeast_le_add_iff (memSpSize_spec small) (Dvd.dvd.mul_left whole (2 ^ 31))).trans ?_)
  rw [Build.cacheline, Nat.max_le, and_iff_right]
  omega

theorem memPageSize_le (build : Build) (env : Env) : (envInit build env).memPageSize ≤ 2 ^ 63 := by
  obtain ⟨size, -, -, most, page⟩ := memPageSize_spec build env
  rw [page]
  exact Nat.pow_le_pow_right Nat.two_pos ((Nat.clog_le_iff_le_pow Nat.one_lt_two).mpr most)

/-- A page of descriptors holds one, and not more than an `int` can count if not more is asked
for. -/
theorem descPool_carvable_iff (build : Build) (env : Env) :
    (descPool build (envInit build env)).Carvable ↔
      requestedMemPageSize env ≤ 2 ^ (31 + Nat.log 2 build.descElemSize) := by
  have limit : envSizeMax = 2 ^ 63 - 1 := rfl
  have bytes : sizeofPage = 56 := rfl
  have thread := build.thread_le
  obtain ⟨-, elem, room⟩ := descElemSize_spec build
  obtain ⟨size, least, nonzero, most, page⟩ := memPageSize_spec build env
  have log := cachelineLog_le build
  have enough : size ≤ (envInit build env).memPageSize := by
    rw [page]
    exact Nat.le_pow_clog Nat.one_lt_two size
  have asked := least.1.2
  have fits := memPageSize_le build env
  have some : 1 ≤ (descPool build (envInit build env)).numHeadersPerBucket :=
    Nat.div_pos (memMaxDescs_spec build env).2.1 Nat.two_pos
  have lower : 2 ^ Nat.log 2 build.descElemSize ≤ build.descElemSize :=
    Nat.pow_log_le_self 2 (by omega)
  have upper : build.descElemSize < 2 ^ (Nat.log 2 build.descElemSize + 1) :=
    Nat.lt_pow_succ_log_self Nat.one_lt_two _
  have short : Nat.log 2 build.descElemSize < 12 := Nat.log_lt_of_lt_pow (by omega) (by omega)
  have holds : sizeofPage + build.descElemSize ≤ (envInit build env).memPageSize :=
    room.trans (by omega)
  refine (Pool.carvable_iff (Nat.lt_of_lt_of_le (by omega) elem) some holds fits).trans ?_
  change (envInit build env).memPageSize ≤ 2 ^ 31 * build.descElemSize + (sizeofPage - 1) ↔ _
  constructor
  · intro few
    by_contra more
    have small : 2 ^ (31 + Nat.log 2 build.descElemSize) ≤ 2 ^ 42 :=
      Nat.pow_le_pow_right Nat.two_pos (by omega)
    have less : 2 ^ (31 + Nat.log 2 build.descElemSize) < 2 ^ Nat.clog 2 size := by omega
    have next : 31 + Nat.log 2 build.descElemSize < Nat.clog 2 size :=
      (Nat.pow_lt_pow_iff_right Nat.one_lt_two).mp less
    have double : 2 ^ (31 + (Nat.log 2 build.descElemSize + 1)) ≤ 2 ^ Nat.clog 2 size :=
      Nat.pow_le_pow_right Nat.two_pos next
    rw [Nat.pow_add] at double
    omega
  · intro few
    have large : 2 ^ 31 ≤ 2 ^ (31 + Nat.log 2 build.descElemSize) :=
      Nat.pow_le_pow_right Nat.two_pos (Nat.le_add_right ..)
    have rounded : size ≤ 2 ^ (31 + Nat.log 2 build.descElemSize) :=
      least.2 ⟨Nat.pow_dvd_pow 2 (by omega), by omega⟩
    have powers : 2 ^ Nat.clog 2 size ≤ 2 ^ (31 + Nat.log 2 build.descElemSize) :=
      Nat.pow_le_pow_right Nat.two_pos ((Nat.clog_le_iff_le_pow Nat.one_lt_two).mpr rounded)
    rw [Nat.pow_add] at powers
    omega

/-! ## The configuration -/

/-- **The memory configuration is consistent exactly when the values that are asked for are
moderate.** -/
theorem memory_configuration_consistent_iff (build : Build) (env : Env) :
    Consistent build (envInit build env) ↔ Moderate build env := by
  obtain ⟨multiple, large, -⟩ := envGetThreadStacksize_spec build env
  have sized : envGetThreadStacksize build env < 2 ^ 62 →
      envGetThreadStacksize build env =
        roundup 64 (max 512 (requestedThreadStacksize build env)) build.cacheline := by
    intro small
    have limit : envSizeMax = 2 ^ 63 - 1 := rfl
    have bound := envGetThreadStacksize_lt_iff.mp small
    rw [envGetThreadStacksize_eq, Nat.min_eq_right (by omega)]
    rfl
  constructor
  · intro consistent
    have fits : (envInit build env).memSpSize < 2 ^ 64 := roundup_lt_two_pow ..
    have four : 4 * envGetThreadStacksize build env ≤ (envInit build env).memSpSize :=
      consistent.memSpSize
    have small : envGetThreadStacksize build env < 2 ^ 62 := by omega
    have pages := (stackPool_carvable_iff small).mp consistent.carvesStacks
    rw [sized small] at pages
    exact ⟨envGetThreadStacksize_lt_iff.mp small, pages,
      (descPool_carvable_iff build env).mp consistent.carvesDescs⟩
  · intro moderate
    have small := envGetThreadStacksize_lt_iff.mpr moderate.threadStacksize
    have pages := moderate.memStackPageSize
    rw [← sized small] at pages
    have four := (memSpSize_spec small).1.2
    obtain ⟨size, -, -, -, page⟩ := memPageSize_spec build env
    obtain ⟨evenStacks, someStacks, -⟩ := memMaxStacks_spec build env
    obtain ⟨evenDescs, someDescs, -⟩ := memMaxDescs_spec build env
    exact
      { keyTableSize := keyTableSize_spec env
        memPageSize := ⟨_, page⟩
        threadStacksize := ⟨Nat.lt_of_lt_of_le (by decide) large, multiple⟩
        memMaxStacks := ⟨Nat.lt_of_lt_of_le Nat.two_pos someStacks, evenStacks⟩
        memMaxDescs := ⟨Nat.lt_of_lt_of_le Nat.two_pos someDescs, evenDescs⟩
        memSpSize := by
          rw [Nat.mul_comm]
          exact (Nat.le_max_left ..).trans four
        carvesStacks := (stackPool_carvable_iff small).mpr pages
        carvesDescs := (descPool_carvable_iff build env).mpr moderate.memPageSize }

def usualBuild : Build :=
  ⟨6, 16384, false, 4096, 136, by decide, by decide, by decide, by decide +kernel⟩

/-- `ABT_THREAD_STACKSIZE` is `2 ^ 62` and nothing else is set. -/
def hugeStacks : Env := fun name =>
  if name = "ABT_THREAD_STACKSIZE" then some "4611686018427387904" else none

/-- Four stacks wrap to zero, a stack page keeps its default size, and the first bucket of stacks
fails the assertion. -/
theorem huge_stacks_inconsistent :
    let p := envInit usualBuild hugeStacks
    let pool := stackPool usualBuild p
    p.threadStacksize = 2 ^ 62 ∧ p.memSpSize = 8 * 1024 * 1024 ∧
      numProvided pool.headerSize pool.memExtraSize pool.numHeadersPerBucket = 0 ∧
        ¬ Consistent usualBuild p := by
  intro p pool
  have sizes : p.threadStacksize = 2 ^ 62 ∧ p.memSpSize = 8 * 1024 * 1024 := by decide +kernel
  have zero : numProvided pool.headerSize pool.memExtraSize pool.numHeadersPerBucket = 0 := by
    decide +kernel
  refine ⟨sizes.1, sizes.2, zero, fun consistent => ?_⟩
  have four := consistent.memSpSize
  omega

/-! ## The pools of the pool model -/

/-- The two pools of a consistent configuration meet the assertions of
`ABTI_mem_pool_init_global_pool` and the bounds of the counts, so that they are pools of the pool
model. -/
theorem Consistent.exists_config (consistent : Consistent build (envInit build env)) (pool : Pool)
    (either : pool = stackPool build (envInit build env) ∨
      pool = descPool build (envInit build env)) :
    ∃ config : MemPool.Config, config.numHeadersPerBucket = pool.numHeadersPerBucket ∧
      config.headerSize = pool.headerSize ∧ config.headerOffset = pool.headerOffset ∧
      config.pageSize = pool.pageSize ∧ config.sizeofHeader = sizeofHeader ∧
      config.sizeofPage = sizeofPage := by
  have thread := build.thread_le
  have bytes : sizeofHeader = 16 := rfl
  have page : sizeofPage = 56 := rfl
  obtain ⟨multiple, large, small⟩ := envGetThreadStacksize_spec build env
  obtain ⟨-, stack, -⟩ := stackElemSize_spec multiple large small
  obtain ⟨-, desc, -⟩ := descElemSize_spec build
  suffices constants : 1 ≤ pool.numHeadersPerBucket ∧ pool.numHeadersPerBucket < 2 ^ 31 ∧
      pool.headerOffset + sizeofHeader ≤ pool.headerSize ∧
        sizeofPage + pool.headerSize ≤ pool.pageSize ∧
          pool.pageSize ≤ 2 ^ 31 * pool.headerSize + (sizeofPage - 1) by
    obtain ⟨some, few, header, holds, most⟩ := constants
    exact ⟨⟨pool.numHeadersPerBucket, pool.headerSize, pool.headerOffset, pool.pageSize,
      sizeofHeader, sizeofPage, some, by decide, header, by omega, few, by
        rw [Nat.div_lt_iff_lt_mul (by omega)]
        omega⟩, rfl, rfl, rfl, rfl, rfl, rfl⟩
  rcases either with rfl | rfl
  · obtain ⟨-, two, most⟩ := memMaxStacks_spec build env
    have fits : (envInit build env).memSpSize < 2 ^ 64 := roundup_lt_two_pow ..
    have four : 4 * envGetThreadStacksize build env ≤ (envInit build env).memSpSize :=
      consistent.memSpSize
    refine ⟨Nat.div_pos two Nat.two_pos, ?_, ?_, consistent.carvesStacks.holds,
      (stackPool_carvable_iff_memSpSize (by omega)).mp consistent.carvesStacks⟩
    · exact Nat.lt_of_lt_of_le (Nat.div_lt_self (by omega) Nat.one_lt_two) most
    · change envGetThreadStacksize build env + _ ≤
        stackElemSize build (envGetThreadStacksize build env)
      omega
  · obtain ⟨-, two, most⟩ := memMaxDescs_spec build env
    have some : 1 ≤ (descPool build (envInit build env)).numHeadersPerBucket :=
      Nat.div_pos two Nat.two_pos
    have holds := consistent.carvesDescs.holds
    refine ⟨some, ?_, ?_, holds, (Pool.carvable_iff (Nat.lt_of_lt_of_le (by omega) desc) some holds
      (memPageSize_le build env)).mp consistent.carvesDescs⟩
    · exact Nat.lt_of_lt_of_le (Nat.div_lt_self (by omega) Nat.one_lt_two) most
    · change 0 + _ ≤ build.descElemSize
      omega

end ArgobotsReduction.Memory.EnvInit
