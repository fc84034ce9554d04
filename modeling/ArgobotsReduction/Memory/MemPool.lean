import Mathlib.Algebra.BigOperators.Group.List.Basic
import Mathlib.Algebra.Order.Group.Multiset
import Mathlib.Data.Multiset.UnionInter
import Mathlib.Data.Int.Order.Basic
import Mathlib.Tactic.Abel
import Mathlib.Tactic.Linarith
import ArgobotsReduction.Containers.LinkedChain
import ArgobotsReduction.Utilities.Atoi

/-!
# The global memory pool

The global pool hands out buckets of `num_headers_per_bucket` linked headers.
Full buckets wait in `bucket_lifo`; headers that do not fill a bucket are
collected in `partial_bucket`, whose first header records how many there are.
When the LIFO is empty, a bucket is carved from pages, and what was carved when
a page cannot be allocated goes to the partial bucket.

A bucket returned to the partial one is merged in three ways.  If both together
are more than one full bucket, the headers left over become the new partial
bucket, and the count recorded for it is the negative of their number.

The code keeps its counts in an `int`.  A pool has fewer than `2 ^ 31` headers in a
bucket and fewer than `2 ^ 31` in a page (`Config`), so that each count is one.  Only the
sum of two counts may be too large for an `int`, and it wraps.

The invariant of the pool is `Laid`: it names the chains of the pool, their
lengths and the recorded count, and accounts for all carved headers.
-/

set_option autoImplicit false

namespace ArgobotsReduction.Memory.MemPool

open Containers
open Utilities (asInt32)

/-! ## The pool -/

/-- The address of a header: a page and an offset in it. -/
structure Header where
  page : ℕ
  offset : ℕ
deriving DecidableEq

/-- `ABTI_mem_pool_header_bucket_info`: a header in the LIFO has its links there,
any other a number of headers. -/
inductive BucketInfo where
  | lifoElem
  | numHeaders (count : ℤ)
deriving DecidableEq

/-- The member `num_headers`, read as an `int`. -/
def BucketInfo.count : BucketInfo → ℤ
  | lifoElem => 0
  | numHeaders count => count

/-- `ABTI_mem_pool_page`: what is left of a page. -/
structure Page where
  memExtra : ℕ
  memExtraSize : ℕ

/-- The constants of a pool, with what `ABTI_mem_pool_init_global_pool` asserts
of them, and the assertion of `ABTI_mem_pool_take_bucket` for a new page.  The headers
of a bucket and those of a page are counted by an `int`. -/
structure Config where
  numHeadersPerBucket : ℕ
  headerSize : ℕ
  headerOffset : ℕ
  pageSize : ℕ
  sizeofHeader : ℕ
  sizeofPage : ℕ
  bucket_pos : 1 ≤ numHeadersPerBucket
  sizeof_pos : 0 < sizeofHeader
  header_fits : headerOffset + sizeofHeader ≤ headerSize
  page_provides : headerSize ≤ pageSize - sizeofPage
  bucket_lt : numHeadersPerBucket < 2 ^ 31
  page_lt : (pageSize - sizeofPage) / headerSize < 2 ^ 31

/-- `ABTI_mem_pool_global_pool`, with the memory its headers and pages are in. -/
structure GlobalPool where
  pages : ℕ → Page
  numPages : ℕ
  memPageLifo : List ℕ
  memPageEmpty : List ℕ
  next : Header → Option Header
  bucketInfo : Header → BucketInfo
  bucketLifo : List Header
  partialBucket : Option Header

/-- `ABTI_mem_pool_init_global_pool` -/
def initGlobalPool : GlobalPool where
  pages := fun _ => ⟨0, 0⟩
  numPages := 0
  memPageLifo := []
  memPageEmpty := []
  next := fun _ => none
  bucketInfo := fun _ => .lifoElem
  bucketLifo := []
  partialBucket := none

namespace GlobalPool

/-- `pointer->p_next = target` -/
def setNext (pool : GlobalPool) (pointer target : Option Header) : GlobalPool :=
  match pointer with
  | none => pool
  | some header => { pool with next := Function.update pool.next header target }

/-- `pointer->bucket_info.num_headers = count` -/
def setNumHeaders (pool : GlobalPool) (pointer : Option Header) (count : ℤ) : GlobalPool :=
  match pointer with
  | none => pool
  | some header =>
      { pool with bucketInfo := Function.update pool.bucketInfo header (.numHeaders count) }

/-- `ABTI_mem_pool_return_bucket` -/
def returnBucket (pool : GlobalPool) (bucket : Header) : GlobalPool :=
  { pool with
    bucketLifo := bucket :: pool.bucketLifo
    bucketInfo := Function.update pool.bucketInfo bucket .lifoElem }

end GlobalPool

variable (config : Config)

/-- `mem_pool_return_partial_bucket` -/
def returnPartialBucket (pool : GlobalPool) (bucket : Header) : GlobalPool :=
  match pool.partialBucket with
  | none => { pool with partialBucket := some bucket }
  | some partialBucket =>
      let inPartial := (pool.bucketInfo partialBucket).count
      let inBucket := (pool.bucketInfo bucket).count
      -- an `int`, like both summands
      let inBoth := asInt32 (inPartial + inBucket)
      if inBoth < config.numHeadersPerBucket then
        -- the loop starts with `i = 1` at the first header
        let tail := walk pool.next (inPartial - 1).toNat (some partialBucket)
        (pool.setNext tail (some bucket)).setNumHeaders (some partialBucket) inBoth
      else
        let last :=
          walk pool.next (config.numHeadersPerBucket - inBucket - 1).toNat (some partialBucket)
        let newPartial :=
          if inBoth ≠ config.numHeadersPerBucket then last.bind pool.next else none
        let counted := pool.setNumHeaders newPartial (config.numHeadersPerBucket - inBoth)
        { (counted.setNext last (some bucket)).returnBucket partialBucket with
          partialBucket := newPartial }

/-- A page with memory left, from `mem_page_lifo` or newly allocated; `grants`
is the number of allocations that succeed before one fails. -/
def takePage (grants : ℕ) (pool : GlobalPool) : Option (ℕ × ℕ × GlobalPool) :=
  match pool.memPageLifo with
  | page :: rest => some (page, grants, { pool with memPageLifo := rest })
  | [] =>
      match grants with
      | 0 => none
      | grants + 1 =>
          some (pool.numPages, grants,
            { pool with
              pages := Function.update pool.pages pool.numPages
                ⟨0, config.pageSize - config.sizeofPage⟩
              numPages := pool.numPages + 1 })

/-- The number of headers that a page provides, when some are taken already. -/
def numProvided (pool : GlobalPool) (page numHeaders : ℕ) : ℕ :=
  min ((pool.pages page).memExtraSize / config.headerSize)
    (config.numHeadersPerBucket - numHeaders)

theorem numProvided_le (pool : GlobalPool) (page numHeaders : ℕ) :
    numProvided config pool page numHeaders ≤ config.numHeadersPerBucket - numHeaders :=
  min_le_right _ _

/-- Take memory for some headers from a page, and put the page back. -/
def takeMemory (pool : GlobalPool) (page provided : ℕ) : GlobalPool :=
  let memExtraSize := (pool.pages page).memExtraSize - config.headerSize * provided
  { pool with
    pages := Function.update pool.pages page
      ⟨(pool.pages page).memExtra + config.headerSize * provided, memExtraSize⟩
    memPageLifo :=
      if config.headerSize ≤ memExtraSize then page :: pool.memPageLifo else pool.memPageLifo
    memPageEmpty :=
      if config.headerSize ≤ memExtraSize then pool.memPageEmpty else page :: pool.memPageEmpty }

/-- The headers in some memory of a page, the last one first. -/
def headersAt (page memExtra : ℕ) : ℕ → List Header
  | 0 => []
  | count + 1 =>
      ⟨page, memExtra + config.headerSize * count + config.headerOffset⟩ ::
        headersAt page memExtra count

/-- Link the headers in some memory of a page in front of `head`, each to the
one before it. -/
def linkHeaders (page memExtra : ℕ) (next : Header → Option Header) (head : Option Header) :
    ℕ → (Header → Option Header) × Option Header
  | 0 => (next, head)
  | count + 1 =>
      let header : Header :=
        ⟨page, memExtra + config.headerSize * count + config.headerOffset⟩
      let linked := linkHeaders page memExtra next head count
      (Function.update linked.1 header linked.2, some header)

/-- The outcomes of `ABTI_mem_pool_take_bucket`; the last is a failed assertion. -/
inductive TakeResult where
  | success (bucket : Option Header)
  | failure
  | assertion
deriving DecidableEq

/-- The branch of the loop for a page that cannot be allocated: the headers taken
so far go to the partial bucket. -/
def failAllocation (pool : GlobalPool) (numHeaders : ℕ) (head : Option Header) :
    GlobalPool × TakeResult :=
  match head with
  | none => (pool, .failure)
  | some bucket =>
      if numHeaders ≠ 0 then
        (returnPartialBucket config (pool.setNumHeaders (some bucket) numHeaders) bucket, .failure)
      else (pool, .failure)

/-- The loop of `ABTI_mem_pool_take_bucket`, with `numHeaders` headers taken so
far, linked from `head`. -/
def allocateHeaders (grants : ℕ) (pool : GlobalPool) (numHeaders : ℕ) (head : Option Header) :
    GlobalPool × TakeResult :=
  match takePage config grants pool with
  | none => failAllocation config pool numHeaders head
  | some (page, grantsLeft, found) =>
      let provided := numProvided config found page numHeaders
      if provided = 0 then (found, .assertion)
      else
        let linked := linkHeaders config page (found.pages page).memExtra found.next head provided
        let filled := { takeMemory config found page provided with next := linked.1 }
        if numHeaders + provided = config.numHeadersPerBucket then
          (filled.setNumHeaders linked.2 config.numHeadersPerBucket, .success linked.2)
        else allocateHeaders grantsLeft filled (numHeaders + provided) linked.2
termination_by config.numHeadersPerBucket - numHeaders
decreasing_by
  have bound := numProvided_le config found page numHeaders
  omega

/-- `ABTI_mem_pool_take_bucket` -/
def takeBucket (grants : ℕ) (pool : GlobalPool) : GlobalPool × TakeResult :=
  match pool.bucketLifo with
  | bucket :: rest =>
      (({ pool with bucketLifo := rest }).setNumHeaders (some bucket) config.numHeadersPerBucket,
        .success (some bucket))
  | [] => allocateHeaders config grants pool 0 none

/-- `ABTI_mem_pool_destroy_local_pool`: the buckets before the current one, and
the current one. -/
def destroyLocalPool (pool : GlobalPool) (buckets : List Header) (current : Header) : GlobalPool :=
  let pool := buckets.foldl GlobalPool.returnBucket pool
  if (pool.bucketInfo current).count = config.numHeadersPerBucket then pool.returnBucket current
  else returnPartialBucket config pool current

/-! ## What a pool holds -/

/-- A header that has been carved from a page. -/
def Carved (pool : GlobalPool) (header : Header) : Prop :=
  header.page < pool.numPages ∧
    ∃ index < (pool.pages header.page).memExtra / config.headerSize,
      header.offset = config.headerSize * index + config.headerOffset

/-- The number of headers that a take can carve before an allocation fails. -/
def available (grants : ℕ) (pool : GlobalPool) : ℕ :=
  (pool.memPageLifo.map fun page => (pool.pages page).memExtraSize / config.headerSize).sum +
    grants * ((config.pageSize - config.sizeofPage) / config.headerSize)

/-- The pages: memory is taken in headers, and the pages in the LIFO have room
for one more. -/
structure PagesRight (pool : GlobalPool) : Prop where
  whole : ∀ page, config.headerSize ∣ (pool.pages page).memExtra
  room : ∀ page ∈ pool.memPageLifo,
    page < pool.numPages ∧ config.headerSize ≤ (pool.pages page).memExtraSize
  nodup : pool.memPageLifo.Nodup

/-- The chains of a pool: the full buckets, and the headers of the partial one. -/
structure Chains (pool : GlobalPool) (full : List (List Header)) (part : List Header) : Prop where
  lifo : List.Forall₂ (fun bucket headers => Linked pool.next (some bucket) headers)
    pool.bucketLifo full
  partialLinked : Linked pool.next pool.partialBucket part
  full_length : ∀ headers ∈ full, headers.length = config.numHeadersPerBucket
  part_length : part.length < config.numHeadersPerBucket
  count : ∀ head, pool.partialBucket = some head →
    pool.bucketInfo head = .numHeaders part.length

/-- **The invariant of a pool**: every carved header is outside the pool, in one
full bucket, or in the partial bucket. -/
structure Laid (pool : GlobalPool) (outside : Multiset Header) (full : List (List Header))
    (part : List Header) : Prop where
  chains : Chains config pool full part
  pages : PagesRight config pool
  nodup : (outside + (full.flatten + part : Multiset Header)).Nodup
  complete : ∀ header, header ∈ outside + (full.flatten + part : Multiset Header) ↔
    Carved config pool header

variable {config}

theorem Config.headerSize_pos (config : Config) : 0 < config.headerSize :=
  Nat.lt_of_lt_of_le config.sizeof_pos (Nat.le_trans (Nat.le_add_left _ _) config.header_fits)

theorem laid_init : Laid config initGlobalPool 0 [] [] where
  chains :=
    { lifo := List.Forall₂.nil
      partialLinked := rfl
      full_length := by simp
      part_length := config.bucket_pos
      count := by simp [initGlobalPool] }
  pages :=
    { whole := fun _ => Dvd.intro 0 rfl
      room := by simp [initGlobalPool]
      nodup := List.nodup_nil }
  nodup := by simp
  complete := by simp [Carved, initGlobalPool]

theorem lifo_congr {next next' : Header → Option Header} {buckets : List Header}
    {full : List (List Header)}
    (lifo : List.Forall₂ (fun bucket headers => Linked next (some bucket) headers) buckets full)
    (same : ∀ header ∈ full.flatten, next' header = next header) :
    List.Forall₂ (fun bucket headers => Linked next' (some bucket) headers) buckets full := by
  induction lifo with
  | nil => exact List.Forall₂.nil
  | cons linked _ ih =>
      rw [List.flatten_cons] at same
      exact List.Forall₂.cons
        (linked.congr fun header member => same header (List.mem_append_left _ member))
        (ih fun header member => same header (List.mem_append_right _ member))

/-- Chains are kept by changes elsewhere. -/
theorem Chains.frame {pool after : GlobalPool} {full : List (List Header)} {part : List Header}
    (chains : Chains config pool full part) (sameLifo : after.bucketLifo = pool.bucketLifo)
    (samePartial : after.partialBucket = pool.partialBucket)
    (sameNext : ∀ header ∈ full.flatten ++ part, after.next header = pool.next header)
    (sameInfo : ∀ header ∈ part, after.bucketInfo header = pool.bucketInfo header) :
    Chains config after full part where
  lifo := by
    rw [sameLifo]
    exact lifo_congr chains.lifo fun header member =>
      sameNext header (List.mem_append_left _ member)
  partialLinked := by
    rw [samePartial]
    exact chains.partialLinked.congr fun header member =>
      sameNext header (List.mem_append_right _ member)
  full_length := chains.full_length
  part_length := chains.part_length
  count := by
    intro head atHead
    rw [samePartial] at atHead
    have linked := chains.partialLinked
    rw [atHead] at linked
    rw [sameInfo head linked.mem_of_some]
    exact chains.count head atHead

end ArgobotsReduction.Memory.MemPool
