import ArgobotsReduction.Memory.PageRequests
import ArgobotsReduction.Utilities.Rounding

/-!
# The memory configuration

`ABTD_env_init` reads the sizes of the memory pools from the environment.  A value that is unset
or that is no number is replaced by a default, and every value is clamped; then it is rounded to
what the pools need.  `ABTI_mem_init` computes from the result how the two global pools
cut their pages into elements.

A `size_t` has 64 bits, and all of its arithmetic is modulo `2 ^ 64`.  A variable of the
environment is looked up by its name, first with one prefix, then with the other.
-/

set_option autoImplicit false

namespace ArgobotsReduction.Memory.EnvInit

open Utilities PageRequests

/-- `sizeof(ABTI_mem_pool_page)`: seven members of eight bytes -/
def sizeofPage : ℕ := 7 * 8

/-- `sizeof(ABTI_mem_pool_header)`: two members of eight bytes -/
def sizeofHeader : ℕ := 2 * 8

/-- `ABT_MEM_POOL_MAX_LOCAL_BUCKETS` -/
def maxLocalBuckets : ℕ := 2

/-- What is fixed when the library is built.  The cache line is an alignment, so it is a power of
two; an `ABTI_ythread` begins with an `ABTI_thread`. -/
structure Build where
  cachelineLog : ℕ
  defaultThreadStacksize : ℕ
  /-- `ABT_CONFIG_STACK_CHECK_TYPE` is a kind that uses `mprotect`. -/
  checksWithMprotect : Bool
  /-- `getpagesize()`, or `ABTD_SYS_PAGE_SIZE` -/
  sysPagesize : ℕ
  sizeofYthread : ℕ
  cacheline_lt : cachelineLog < 64
  thread_le : 96 ≤ sizeofYthread
  ythread_fits : sizeofYthread + sizeofPage ≤ 1024
  desc_fits : roundup 64 sizeofYthread (2 ^ cachelineLog) + sizeofPage ≤ 4096

/-- `ABT_CONFIG_STATIC_CACHELINE_SIZE` -/
def Build.cacheline (build : Build) : ℕ := 2 ^ build.cachelineLog

/-- `ABTI_MEM_POOL_DESC_ELEM_SIZE` -/
def Build.descElemSize (build : Build) : ℕ := roundup 64 build.sizeofYthread build.cacheline

/-! ## The environment -/

/-- `getenv` -/
abbrev Env := String → Option String

/-- `get_abt_env` -/
def getAbtEnv (env : Env) (envSuffix : String) : Option String :=
  ["ABT_", "ABT_ENV_"].findSome? fun start =>
    if start.length + envSuffix.length + 1 ≤ 128 then env (start ++ envSuffix) else none

/-- `ABTD_ENV_UINT32_MAX` -/
def envUint32Max : ℕ := (2 ^ 32 - 1) / 2

/-- `ABTD_ENV_SIZE_MAX` -/
def envSizeMax : ℕ := (2 ^ 64 - 1) / 2

/-- `load_env_uint32` and `load_env_size`, for the parser of the type -/
def loadEnv (parse : List Char → Except Code (ℕ × Bool)) (env : Env) (envSuffix : String)
    (defaultVal minVal maxVal : ℕ) : ℕ :=
  match getAbtEnv env envSuffix with
  | none => max minVal (min maxVal defaultVal)
  | some str =>
      match parse str.toList with
      | .error _ => max minVal (min maxVal defaultVal)
      | .ok (val, _) => max minVal (min maxVal val)

def loadEnvUint32 : Env → String → ℕ → ℕ → ℕ → ℕ := loadEnv atoui32

def loadEnvSize : Env → String → ℕ → ℕ → ℕ → ℕ := loadEnv (atosz 8)

/-- `strcasecmp(s, t) == 0` -/
def sameIgnoringCase (s t : String) : Bool := s.toLower = t.toLower

/-- `ABTD_env_get_stack_guard_mprotect` -/
def envGetStackGuardMprotect (build : Build) (env : Env) : Bool :=
  match getAbtEnv env "STACK_OVERFLOW_CHECK" with
  | some str => sameIgnoringCase str "mprotect_strict" || sameIgnoringCase str "mprotect"
  | none => build.checksWithMprotect

/-- `ABTD_env_key_table_size` -/
def envKeyTableSize (env : Env) : ℕ :=
  roundupPow2 32 (loadEnvUint32 env "KEY_TABLE_SIZE" 4 1 envUint32Max)

/-- `ABTD_env_get_sys_pagesize` -/
def envGetSysPagesize (build : Build) (env : Env) : ℕ :=
  roundupPow2 64 (loadEnvSize env "SYS_PAGE_SIZE" build.sysPagesize 64 envSizeMax)

/-- The default of `ABTD_env_get_thread_stacksize`: two pages more if they may be protected -/
def defaultThreadStacksize (build : Build) (env : Env) : ℕ :=
  if envGetStackGuardMprotect build env then
    asBits 64 (build.defaultThreadStacksize + asBits 64 (envGetSysPagesize build env * 2))
  else build.defaultThreadStacksize

/-- `ABTD_env_get_thread_stacksize` -/
def envGetThreadStacksize (build : Build) (env : Env) : ℕ :=
  roundup 64
    (loadEnvSize env "THREAD_STACKSIZE" (defaultThreadStacksize build env) 512 envSizeMax)
    build.cacheline

/-- The members of `ABTI_global` that the memory pools and the key tables are made with -/
structure Global where
  keyTableSize : ℕ
  threadStacksize : ℕ
  memPageSize : ℕ
  memSpSize : ℕ
  memMaxStacks : ℕ
  memMaxDescs : ℕ

/-- `ABTD_env_init` -/
def envInit (build : Build) (env : Env) : Global :=
  let threadStacksize := envGetThreadStacksize build env
  let defaultMemMaxStacks := min (asBits 32 (64 * 1024 * 1024 / threadStacksize)) 1024
  { keyTableSize := envKeyTableSize env
    threadStacksize
    memPageSize := roundupPow2 64
      (roundup 64 (loadEnvSize env "MEM_PAGE_SIZE" (2 * 1024 * 1024) 4096 envSizeMax)
        build.cacheline)
    memSpSize := roundup 64
      (loadEnvSize env "MEM_STACK_PAGE_SIZE" (8 * 1024 * 1024) (asBits 64 (threadStacksize * 4))
        envSizeMax)
      build.cacheline
    memMaxStacks := roundup 32
      (loadEnvUint32 env "MEM_MAX_NUM_STACKS" defaultMemMaxStacks maxLocalBuckets envUint32Max)
      maxLocalBuckets
    memMaxDescs := roundup 32
      (loadEnvUint32 env "MEM_MAX_NUM_DESCS" 4096 maxLocalBuckets envUint32Max)
      maxLocalBuckets }

/-! ## The pools -/

/-- The constants of an `ABTI_mem_pool_global_pool` -/
structure Pool where
  numHeadersPerBucket : ℕ
  headerSize : ℕ
  headerOffset : ℕ
  pageSize : ℕ

/-- `stacksize` of `ABTI_mem_init`: a stack and its `ABTI_ythread`, not a multiple of two cache
lines -/
def stackElemSize (build : Build) (threadStacksize : ℕ) : ℕ :=
  let stacksize := roundup 64 (asBits 64 (threadStacksize + build.sizeofYthread)) build.cacheline
  if stacksize &&& (2 * build.cacheline - 1) = 0 then asBits 64 (stacksize + build.cacheline)
  else stacksize

/-- `mem_pool_stack` after `ABTI_mem_init` -/
def stackPool (build : Build) (p : Global) : Pool where
  numHeadersPerBucket := p.memMaxStacks / maxLocalBuckets
  headerSize := stackElemSize build p.threadStacksize
  headerOffset := p.threadStacksize
  pageSize := p.memSpSize

/-- `mem_pool_desc` after `ABTI_mem_init` -/
def descPool (build : Build) (p : Global) : Pool where
  numHeadersPerBucket := p.memMaxDescs / maxLocalBuckets
  headerSize := build.descElemSize
  headerOffset := 0
  pageSize := p.memPageSize

/-- `mem_extra_size` of a new page -/
def Pool.memExtraSize (pool : Pool) : ℕ := asBits 64 (pool.pageSize + (2 ^ 64 - sizeofPage))

/-- **A pool that can be carved**: its pages hold a header, and the assertion of
`ABTI_mem_pool_take_bucket` never fails for them. -/
structure Pool.Carvable (pool : Pool) : Prop where
  holds : sizeofPage + pool.headerSize ≤ pool.pageSize
  provides : Provides pool.headerSize pool.memExtraSize pool.numHeadersPerBucket

/-- **A consistent memory configuration** -/
structure Consistent (build : Build) (p : Global) : Prop where
  keyTableSize : ∃ k, p.keyTableSize = 2 ^ k
  memPageSize : ∃ k, p.memPageSize = 2 ^ k
  threadStacksize : 0 < p.threadStacksize ∧ build.cacheline ∣ p.threadStacksize
  memMaxStacks : 0 < p.memMaxStacks ∧ maxLocalBuckets ∣ p.memMaxStacks
  memMaxDescs : 0 < p.memMaxDescs ∧ maxLocalBuckets ∣ p.memMaxDescs
  memSpSize : 4 * p.threadStacksize ≤ p.memSpSize
  carvesStacks : (stackPool build p).Carvable
  carvesDescs : (descPool build p).Carvable

end ArgobotsReduction.Memory.EnvInit
