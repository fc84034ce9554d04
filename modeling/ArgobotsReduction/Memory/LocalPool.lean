import Mathlib.Data.Finset.Erase
import Mathlib.Data.Finset.Insert
import ArgobotsReduction.Containers.LinkedChain
import ArgobotsReduction.Parallel.Machine

/-!
# The local memory pool

A local pool keeps a few buckets of linked headers, and allocates from the last of them.  The
number of headers of a bucket stands in its first header, whichever that is.  An allocation takes
the last header of a bucket too, and goes on with the bucket before, or with one of the global
pool.  A free that finds the bucket full opens the next one, and returns the oldest ones when
there is no room.

The global pool is what a call to it may do: it gives a full bucket of headers that nobody
has, or fails.  Other streams and the users of allocated headers write whatever they like to the
memory outside the local pool.

The invariant `Holds` says which headers are in which bucket, and `Right` what a call may do
with them.
-/

set_option autoImplicit false

namespace ArgobotsReduction.Memory.LocalPool

open Containers Parallel

universe u

/-! ## The pool -/

/-- `ABT_MEM_POOL_MAX_LOCAL_BUCKETS` -/
def maxLocalBuckets : ℕ := 2

/-- `ABT_MEM_POOL_NUM_RETURN_BUCKETS` -/
def numReturnBuckets : ℕ := 1

/-- The members of the headers: `p_next` and `bucket_info.num_headers` -/
structure Headers (H : Type u) where
  next : H → Option H
  numHeaders : H → ℕ

/-- `ABTI_mem_pool_local_pool` -/
structure Pool (H : Type u) where
  numHeadersPerBucket : ℕ
  bucketIndex : ℕ
  buckets : ℕ → Option H

/-- What `ABTI_mem_pool_take_bucket` leaves in the memory, and the bucket unless it fails. -/
structure Taken (H : Type u) where
  memory : Headers H
  bucket : Option H

variable {H : Type u} [DecidableEq H]

/-- `buckets[index]`, which has to be in the array. -/
def Pool.bucket (pool : Pool H) (index : ℕ) : Option H :=
  if index < maxLocalBuckets then pool.buckets index else none

/-- `buckets[index] = header` -/
def Pool.setBucket (pool : Pool H) (index : ℕ) (header : H) : Pool H :=
  { pool with buckets := Function.update pool.buckets index (some header) }

/-- `header->bucket_info.num_headers = numHeaders` -/
def Headers.setNumHeaders (memory : Headers H) (header : H) (numHeaders : ℕ) : Headers H :=
  { memory with numHeaders := Function.update memory.numHeaders header numHeaders }

/-- Write both members of a header. -/
def Headers.write (memory : Headers H) (header : H) (next : Option H) (numHeaders : ℕ) :
    Headers H where
  next := Function.update memory.next header next
  numHeaders := Function.update memory.numHeaders header numHeaders

/-- `ABTI_mem_pool_init_local_pool`, with what stands in the array before. -/
def initLocalPool (numHeadersPerBucket : ℕ) (garbage : ℕ → Option H) (taken : Taken H) :
    Option (Pool H) :=
  taken.bucket.map fun bucket =>
    ⟨numHeadersPerBucket, 0, Function.update garbage 0 (some bucket)⟩

/-- `ABTI_mem_pool_alloc`: the allocated header, or none if no bucket can be taken.  There is no
result at all if NULL is dereferenced or the assertion fails. -/
def alloc (taken : Taken H) (memory : Headers H) (pool : Pool H) :
    Option (Headers H × Pool H × Option H) := do
  let curBucket ← pool.bucket pool.bucketIndex
  let numHeadersInCurBucket := memory.numHeaders curBucket
  if numHeadersInCurBucket = 0 then none
  else if numHeadersInCurBucket = 1 then
    if pool.bucketIndex = 0 then
      -- `ABT_MEM_POOL_NUM_TAKE_BUCKETS` is 1
      match taken.bucket with
      | none => return (taken.memory, pool, none)
      | some bucket =>
          return (taken.memory, { pool.setBucket 0 bucket with bucketIndex := 0 }, some curBucket)
    else return (memory, { pool with bucketIndex := pool.bucketIndex - 1 }, some curBucket)
  else
    let next ← memory.next curBucket
    return (memory.setNumHeaders next (numHeadersInCurBucket - 1),
      pool.setBucket pool.bucketIndex next, some curBucket)

/-- The loop that shifts the buckets that are not returned, after some turns. -/
def shiftBuckets (buckets : ℕ → Option H) : ℕ → ℕ → Option H
  | 0 => buckets
  | turns + 1 =>
      let shifted := shiftBuckets buckets turns
      Function.update shifted turns (shifted (turns + numReturnBuckets))

/-- `ABTI_mem_pool_free`, with the buckets that are returned to the global pool. -/
def free (memory : Headers H) (pool : Pool H) (mem : H) :
    Option (Headers H × Pool H × List (Option H)) := do
  let curBucket ← pool.bucket pool.bucketIndex
  if memory.numHeaders curBucket = pool.numHeadersPerBucket then
    if pool.bucketIndex + 1 = maxLocalBuckets then
      let kept := maxLocalBuckets - numReturnBuckets
      let shifted : Pool H :=
        { pool with bucketIndex := kept, buckets := shiftBuckets pool.buckets kept }
      return (memory.write mem none 1, shifted.setBucket kept mem,
        (List.range numReturnBuckets).map pool.buckets)
    else
      let opened : Pool H := { pool with bucketIndex := pool.bucketIndex + 1 }
      return (memory.write mem none 1, opened.setBucket (pool.bucketIndex + 1) mem, [])
  else
    return (memory.write mem (some curBucket) (memory.numHeaders curBucket + 1),
      pool.setBucket pool.bucketIndex mem, [])

/-! ## Runs -/

/-- A local pool, the memory of the headers, and the headers that are in use. -/
structure State (H : Type u) where
  memory : Headers H
  pool : Pool H
  held : Finset H

/-- A call, or what happens outside the pool. -/
inductive Event (H : Type u) where
  | alloc (taken : Taken H)
  | free (mem : H)
  /-- Headers are used, and allocated and freed elsewhere. -/
  | others (memory : Headers H) (held : Finset H)

/-- What a call returns. -/
inductive Outcome (H : Type u) where
  | allocated (header : H)
  | failed
  | freed (returned : List (Option H))
  | outside

/-- An event, if its call comes to an end. -/
def perform (s : State H) : Event H → Option (State H × Outcome H)
  | .alloc taken =>
      (alloc taken s.memory s.pool).map fun (memory, pool, result) =>
        match result with
        | some header => (⟨memory, pool, insert header s.held⟩, .allocated header)
        | none => (⟨memory, pool, s.held⟩, .failed)
  | .free mem =>
      (free s.memory s.pool mem).map fun (memory, pool, returned) =>
        (⟨memory, pool, s.held.erase mem⟩, .freed returned)
  | .others memory held => some (⟨memory, s.pool, held⟩, .outside)

omit [DecidableEq H] in
/-- The header is in a bucket of the pool. -/
def Owns (s : State H) (header : H) : Prop :=
  ∃ index ≤ s.pool.bucketIndex, ∃ headers,
    Linked s.memory.next (s.pool.buckets index) headers ∧ header ∈ headers

/-- The members of the headers of the pool stay. -/
def Untouched (s : State H) (memory : Headers H) : Prop :=
  ∀ header, Owns s header →
    memory.next header = s.memory.next header ∧ memory.numHeaders header = s.memory.numHeaders header

/-- A chain of headers that its first header counts. -/
structure Bucket (memory : Headers H) (pointer : Option H) (headers : List H) : Prop where
  linked : Linked memory.next pointer headers
  counted : ∀ header, pointer = some header → memory.numHeaders header = headers.length

/-- A full bucket of distinct headers -/
structure FullBucket (numHeadersPerBucket : ℕ) (memory : Headers H) (pointer : Option H)
    (headers : List H) : Prop where
  bucket : Bucket memory pointer headers
  full : headers.length = numHeadersPerBucket
  nodup : headers.Nodup

/-- What may happen: `ABTI_mem_pool_take_bucket` gives a full bucket of unused headers or fails, a
header that is freed is in use, and nobody else touches the pool. -/
def Allowed (numHeadersPerBucket : ℕ) (s : State H) : Event H → Prop
  | .alloc taken => Untouched s taken.memory ∧
      ∀ bucket, taken.bucket = some bucket → ∃ headers,
        FullBucket numHeadersPerBucket taken.memory (some bucket) headers ∧
          ∀ header ∈ headers, ¬Owns s header ∧ header ∉ s.held
  | .free mem => mem ∈ s.held
  | .others memory held => Untouched s memory ∧ ∀ header ∈ held, ¬Owns s header

/-- The pool after `ABTI_mem_pool_init_local_pool` -/
structure Begins (numHeadersPerBucket : ℕ) (s : State H) : Prop where
  initialized : ∃ garbage bucket,
    initLocalPool numHeadersPerBucket garbage ⟨s.memory, some bucket⟩ = some s.pool ∧
      ∃ headers, FullBucket numHeadersPerBucket s.memory (some bucket) headers ∧
        ∀ header ∈ headers, header ∉ s.held

/-- The calls of one local pool. -/
def localPool (numHeadersPerBucket : ℕ) (H : Type u) [DecidableEq H] :
    Machine (State H) (Event H) where
  init := Begins numHeadersPerBucket
  step s event := (perform s event).map Prod.fst

/-- **The headers of a local pool**: the full buckets before the current one, and the current
one. -/
structure Holds (numHeadersPerBucket : ℕ) (s : State H) (lower : List (List H)) (current : List H) :
    Prop where
  perBucket : s.pool.numHeadersPerBucket = numHeadersPerBucket
  index : s.pool.bucketIndex = lower.length
  index_lt : lower.length < maxLocalBuckets
  lowerBuckets : ∀ index headers, lower[index]? = some headers →
    Bucket s.memory (s.pool.buckets index) headers
  currentBucket : Bucket s.memory (s.pool.buckets lower.length) current
  lower_full : ∀ headers ∈ lower, headers.length = numHeadersPerBucket
  current_pos : 1 ≤ current.length
  current_le : current.length ≤ numHeadersPerBucket
  nodup : (lower.flatten ++ current).Nodup
  apart : ∀ header ∈ lower.flatten ++ current, header ∉ s.held

/-- What a call does right.  The headers of the pool go nowhere but to the caller and to the
buckets that are returned. -/
def Right (numHeadersPerBucket : ℕ) (s t : State H) : Outcome H → Prop
  | .allocated header => header ∉ s.held ∧ t.held = insert header s.held ∧ Owns s header ∧
      ∀ other, Owns s other → other = header ∨ Owns t other
  | .failed => t.pool = s.pool ∧ t.held = s.held ∧ Untouched s t.memory
  | .freed returned => (∀ pointer ∈ returned, ∃ headers,
        FullBucket numHeadersPerBucket t.memory pointer headers ∧
          ∀ header ∈ headers, Owns s header ∧ ¬Owns t header ∧ header ∉ t.held) ∧
      ∀ header, Owns s header → Owns t header ∨ ∃ pointer ∈ returned, ∃ headers,
        Linked t.memory.next pointer headers ∧ header ∈ headers
  | .outside => t.pool = s.pool ∧ Untouched s t.memory

end ArgobotsReduction.Memory.LocalPool
