import Mathlib.Data.List.Induction
import ArgobotsReduction.Memory.TakeBucket

/-!
# Runs of the global memory pool

The local pools take buckets, hand their headers to users and get them back, in
any order, and return full buckets, or, when they are destroyed, also one that
is not full.  So a returned bucket is any list of headers that are handed out,
linked by the local pool.

A state is sound when every carved header is at exactly one place and all
recorded counts are right (`Sound`).  Every state of a run is sound exactly when
no bucket returned to the partial one overflows it (`sound_iff`); the partial
bucket of `not_sound_run` overflows.
-/

set_option autoImplicit false

namespace ArgobotsReduction.Memory.MemPool

open Containers

/-! ## States and events -/

/-- The global pool, and the headers handed out to local pools and their users. -/
structure State where
  pool : GlobalPool
  handedOut : List Header

/-- What callers do with the global pool. -/
inductive Event where
  | takeBucket (grants : ℕ)
  | returnBucket (headers : List Header)
  | destroyLocalPool (buckets : List (List Header)) (current : List Header)

/-- A local pool has linked the headers of a bucket, and their number is in the
first one. -/
def linkBucket (pool : GlobalPool) (headers : List Header) : GlobalPool :=
  { pool with next := arrange pool.next headers }.setNumHeaders headers.head? headers.length

def linkBuckets (pool : GlobalPool) (buckets : List (List Header)) : GlobalPool :=
  buckets.foldr (fun headers linked => linkBucket linked headers) pool

/-- The headers of some buckets are distinct, and were handed out. -/
def Owns (s : State) (buckets : List (List Header)) : Prop :=
  buckets.flatten.Nodup ∧ ∀ header ∈ buckets.flatten, header ∈ s.handedOut

instance (s : State) (buckets : List (List Header)) : Decidable (Owns s buckets) :=
  inferInstanceAs (Decidable (_ ∧ _))

variable (config : Config)

/-- The buckets of a local pool: all full but the current one, which is not empty. -/
def IsLocalPool (s : State) (buckets : List (List Header)) (current : List Header) : Prop :=
  Owns s (current :: buckets) ∧ (∀ headers ∈ buckets, headers.length = config.numHeadersPerBucket) ∧
    current.length ≤ config.numHeadersPerBucket ∧ current ≠ []

instance (s : State) (buckets : List (List Header)) (current : List Header) :
    Decidable (IsLocalPool config s buckets current) :=
  inferInstanceAs (Decidable (_ ∧ _ ∧ _ ∧ _))

/-- One event; nothing happens if the caller does not have the headers. -/
def step (s : State) : Event → State
  | .takeBucket grants =>
      match takeBucket config grants s.pool with
      | (pool, .success bucket) =>
          ⟨pool, follow pool.next config.numHeadersPerBucket bucket ++ s.handedOut⟩
      | (pool, .failure) => ⟨pool, s.handedOut⟩
      | (pool, .assertion) => ⟨pool, s.handedOut⟩
  | .returnBucket headers =>
      match headers.head? with
      | none => s
      | some bucket =>
          if Owns s [headers] ∧ headers.length = config.numHeadersPerBucket then
            ⟨(linkBucket s.pool headers).returnBucket bucket, s.handedOut.diff headers⟩
          else s
  | .destroyLocalPool buckets current =>
      match current.head? with
      | none => s
      | some bucket =>
          if IsLocalPool config s buckets current then
            ⟨destroyLocalPool config (linkBuckets s.pool (current :: buckets))
              (buckets.filterMap List.head?) bucket, s.handedOut.diff (current ++ buckets.flatten)⟩
          else s

/-- A run from the initialised pool. -/
def run (events : List Event) : State := events.foldl (step config) ⟨initGlobalPool, []⟩

theorem run_append_singleton (events : List Event) (event : Event) :
    run config (events ++ [event]) = step config (run config events) event := by
  simp [run]

/-! ## What has to hold -/

/-- The places of headers. -/
inductive Place where
  | handedOut
  | fullBucket (index : ℕ)
  | partialBucket
deriving DecidableEq

/-- The headers at a place: those on the chain of the bucket. -/
def State.Holds (s : State) : Place → List Header → Prop
  | .handedOut, headers => headers = s.handedOut
  | .fullBucket index, headers =>
      ∃ bucket, s.pool.bucketLifo[index]? = some bucket ∧ Linked s.pool.next (some bucket) headers
  | .partialBucket, headers => Linked s.pool.next s.pool.partialBucket headers

/-- A header is at a place. -/
def State.At (s : State) (place : Place) (header : Header) : Prop :=
  ∃ headers, s.Holds place headers ∧ header ∈ headers

/-- No header is lost or duplicated, and the counts of the buckets are right. -/
structure Sound (s : State) : Prop where
  onePlace : ∀ header, Carved config s.pool header → ∃! place, s.At place header
  distinct : ∀ place headers, s.Holds place headers →
    headers.Nodup ∧ ∀ header ∈ headers, Carved config s.pool header
  fullBuckets : ∀ bucket ∈ s.pool.bucketLifo, ∃ headers,
    Linked s.pool.next (some bucket) headers ∧ headers.length = config.numHeadersPerBucket
  partialBucket : ∀ bucket, s.pool.partialBucket = some bucket → ∃ headers,
    Linked s.pool.next (some bucket) headers ∧
      s.pool.bucketInfo bucket = .numHeaders headers.length ∧
      1 ≤ headers.length ∧ headers.length ≤ config.numHeadersPerBucket - 1

/-- A take that fails leaves the headers it has carved in the global pool. -/
def FailureKeeps (s : State) (event : Event) : Prop :=
  ∀ grants, event = .takeBucket grants → (takeBucket config grants s.pool).2 = .failure →
    ∀ header, Carved config (step config s event).pool header → ¬Carved config s.pool header →
      ∃ place ≠ .handedOut, (step config s event).At place header

/-- The recorded number of headers in the partial bucket. -/
def partialCount (pool : GlobalPool) : ℤ :=
  match pool.partialBucket with
  | none => 0
  | some bucket => (pool.bucketInfo bucket).count

/-- A bucket returned to the partial one does not overflow it: neither the current
bucket of a destroyed local pool, nor what a failing take has carved. -/
def Fits (s : State) : Event → Prop
  | .takeBucket grants =>
      s.pool.bucketLifo = [] → available config grants s.pool < config.numHeadersPerBucket →
        partialCount s.pool + available config grants s.pool ≤ config.numHeadersPerBucket
  | .returnBucket _ => True
  | .destroyLocalPool buckets current =>
      IsLocalPool config s buckets current → current.length < config.numHeadersPerBucket →
        partialCount s.pool + current.length ≤ config.numHeadersPerBucket

variable {config}

/-! ## The invariant -/

/-- The state is laid out as the invariant of the pool says. -/
def Invariant (config : Config) (s : State) : Prop :=
  ∃ full part, Laid config s.pool s.handedOut full part

theorem invariant_init : Invariant config ⟨initGlobalPool, []⟩ :=
  ⟨[], [], laid_init⟩

section Laid

variable {s : State} {full : List (List Header)} {part : List Header}

theorem Laid.partialCount (laid : Laid config s.pool s.handedOut full part) :
    partialCount s.pool = part.length := by
  have linked := laid.chains.partialLinked
  rw [MemPool.partialCount]
  cases atHead : s.pool.partialBucket with
  | none =>
      rw [atHead] at linked
      rw [linked.unique (show Linked s.pool.next none [] from rfl)]
      rfl
  | some bucket =>
      change (s.pool.bucketInfo bucket).count = _
      rw [laid.chains.count bucket atHead, BucketInfo.count]

/-- The place of a list among all lists of headers. -/
def Place.index : Place → ℕ
  | .handedOut => 0
  | .partialBucket => 1
  | .fullBucket index => index + 2

theorem Place.index_injective {first second : Place} (same : first.index = second.index) :
    first = second := by
  cases first <;> cases second <;> simp_all [Place.index]

theorem Laid.getElem?_of_holds (laid : Laid config s.pool s.handedOut full part) {place : Place}
    {headers : List Header} (holds : s.Holds place headers) :
    (s.handedOut :: part :: full)[place.index]? = some headers := by
  cases place with
  | handedOut => exact congrArg some (Eq.symm holds)
  | partialBucket => exact congrArg some (laid.chains.partialLinked.unique holds)
  | fullBucket index =>
      obtain ⟨bucket, atIndex, linked⟩ := holds
      obtain ⟨bound, rfl⟩ := List.getElem?_eq_some_iff.mp atIndex
      have bound' : index < full.length := laid.chains.lifo.length_eq ▸ bound
      have other := laid.chains.lifo.get bound bound'
      simp only [List.get_eq_getElem] at other
      change full[index]? = _
      rw [List.getElem?_eq_getElem bound', other.unique linked]

/-- **The invariant makes a state sound.** -/
theorem Laid.sound (laid : Laid config s.pool s.handedOut full part) : Sound config s := by
  have flat : ((s.handedOut :: part :: full).flatten : Multiset Header) =
      s.handedOut + (full.flatten + part : Multiset Header) := by
    rw [List.flatten_cons, List.flatten_cons, ← Multiset.coe_add, ← Multiset.coe_add,
      Multiset.add_comm (part : Multiset Header)]
  have nodup : (s.handedOut :: part :: full).flatten.Nodup := by
    rw [← Multiset.coe_nodup, flat]
    exact laid.nodup
  have complete : ∀ header, header ∈ (s.handedOut :: part :: full).flatten ↔
      Carved config s.pool header := by
    intro header
    rw [← laid.complete, ← flat, Multiset.mem_coe]
  have somewhere : ∀ (index : ℕ) (headers : List Header),
      (s.handedOut :: part :: full)[index]? = some headers →
      ∃ place, s.Holds place headers := by
    rintro (_ | _ | index) headers atIndex
    · exact ⟨.handedOut, (Option.some.inj atIndex).symm⟩
    · exact ⟨.partialBucket, Option.some.inj atIndex ▸ laid.chains.partialLinked⟩
    · obtain ⟨bound, rfl⟩ := List.getElem?_eq_some_iff.mp (show full[index]? = _ from atIndex)
      have bound' : index < s.pool.bucketLifo.length := laid.chains.lifo.length_eq ▸ bound
      exact ⟨.fullBucket index, _, List.getElem?_eq_getElem bound',
        laid.chains.lifo.get bound' bound⟩
  exact
    { onePlace := by
        intro header carved
        obtain ⟨headers, inLists, member⟩ := List.mem_flatten.mp ((complete header).mpr carved)
        obtain ⟨index, atIndex⟩ := List.getElem?_of_mem inLists
        obtain ⟨place, holds⟩ := somewhere index headers atIndex
        refine ⟨place, ⟨headers, holds, member⟩, ?_⟩
        rintro other ⟨others, otherHolds, otherMember⟩
        exact Place.index_injective (index_unique nodup (laid.getElem?_of_holds otherHolds)
          (laid.getElem?_of_holds holds) otherMember member)
      distinct := by
        intro place headers holds
        have inLists := List.mem_of_getElem? (laid.getElem?_of_holds holds)
        exact ⟨(List.nodup_flatten.mp nodup).1 headers inLists, fun header member =>
          (complete header).mp (List.mem_flatten.mpr ⟨headers, inLists, member⟩)⟩
      fullBuckets := by
        intro bucket member
        obtain ⟨index, atIndex⟩ := List.getElem?_of_mem member
        obtain ⟨bound, rfl⟩ := List.getElem?_eq_some_iff.mp atIndex
        have bound' : index < full.length := laid.chains.lifo.length_eq ▸ bound
        exact ⟨full[index], laid.chains.lifo.get bound bound',
          laid.chains.full_length _ (List.getElem_mem bound')⟩
      partialBucket := by
        intro bucket atHead
        have linked := laid.chains.partialLinked
        rw [atHead] at linked
        exact ⟨part, linked, laid.chains.count bucket atHead,
          List.length_pos_of_mem linked.mem_of_some, Nat.le_sub_one_of_lt laid.chains.part_length⟩ }

end Laid

/-! ## Buckets of local pools -/

section Link

variable {pool : GlobalPool} {outside : Multiset Header} {full : List (List Header)}
  {part headers : List Header}

theorem linkBucket_next {header : Header} (absent : header ∉ headers) :
    (linkBucket pool headers).next header = pool.next header := by
  cases headers with
  | nil => rfl
  | cons first rest => exact arrange_of_notMem absent

theorem linkBucket_bucketInfo {header : Header} (absent : header ∉ headers) :
    (linkBucket pool headers).bucketInfo header = pool.bucketInfo header := by
  cases headers with
  | nil => rfl
  | cons first rest =>
      exact Function.update_of_ne (List.ne_of_not_mem_cons absent) _ _

theorem linkBucket_linked (nodup : headers.Nodup) :
    Linked (linkBucket pool headers).next headers.head? headers := by
  cases headers with
  | nil => rfl
  | cons first rest => exact arrange_linked nodup

theorem linkBucket_counted {bucket : Header} (first : headers.head? = some bucket) :
    (linkBucket pool headers).bucketInfo bucket = .numHeaders headers.length := by
  rw [linkBucket, first]
  exact Function.update_self _ _ _

/-- Local pools link headers that are outside the global pool. -/
theorem Laid.linkBucket (laid : Laid config pool outside full part)
    (owned : ∀ header ∈ headers, header ∈ outside) :
    Laid config (linkBucket pool headers) outside full part := by
  have apart : ∀ header ∈ full.flatten ++ part, header ∉ headers := by
    intro header inside member
    refine Multiset.disjoint_left.mp (Multiset.nodup_add.mp laid.nodup).2.2 (owned header member) ?_
    rcases List.mem_append.mp inside with inFull | inPart
    · exact Multiset.mem_add.mpr (Or.inl inFull)
    · exact Multiset.mem_add.mpr (Or.inr inPart)
  cases headers with
  | nil => exact laid
  | cons first rest =>
      refine laid.rearrange (laid.chains.frame rfl rfl ?_ ?_) rfl rfl rfl rfl
      · exact fun header inside => linkBucket_next (apart header inside)
      · exact fun header inPart =>
          linkBucket_bucketInfo (apart header (List.mem_append_right _ inPart))

/-- The buckets of a local pool are linked, with their numbers of headers. -/
theorem Laid.linkBuckets {buckets : List (List Header)} (laid : Laid config pool outside full part)
    (owned : ∀ header ∈ buckets.flatten, header ∈ outside) (nodup : buckets.flatten.Nodup) :
    Laid config (linkBuckets pool buckets) outside full part ∧
      ∀ headers ∈ buckets, Linked (linkBuckets pool buckets).next headers.head? headers ∧
        ∀ bucket, headers.head? = some bucket →
          (linkBuckets pool buckets).bucketInfo bucket = .numHeaders headers.length := by
  induction buckets with
  | nil => exact ⟨laid, by simp⟩
  | cons first rest ih =>
      rw [List.flatten_cons] at owned nodup
      obtain ⟨nodupFirst, nodupRest, apart⟩ := List.nodup_append.mp nodup
      obtain ⟨laidRest, linkedRest⟩ := ih
        (fun header member => owned header (List.mem_append_right _ member)) nodupRest
      refine ⟨laidRest.linkBucket fun header member =>
        owned header (List.mem_append_left _ member), ?_⟩
      intro headers member
      rcases List.mem_cons.mp member with rfl | inRest
      · exact ⟨linkBucket_linked nodupFirst, fun bucket => linkBucket_counted⟩
      · have absent : ∀ header ∈ headers, header ∉ first := fun header inHeaders inFirst =>
          apart header inFirst header (List.mem_flatten.mpr ⟨headers, inRest, inHeaders⟩) rfl
        obtain ⟨linked, counted⟩ := linkedRest headers inRest
        refine ⟨linked.congr fun header inHeaders => linkBucket_next (absent header inHeaders), ?_⟩
        intro bucket atHead
        refine (linkBucket_bucketInfo (absent bucket (List.mem_of_mem_head? atHead))).trans ?_
        exact counted bucket atHead

/-- The full buckets of a destroyed local pool are returned one after the other. -/
theorem Laid.returnBuckets {buckets : List (List Header)}
    (laid : Laid config pool (outside + (buckets.flatten : Multiset Header)) full part)
    (linked : ∀ headers ∈ buckets, Linked pool.next headers.head? headers ∧
      headers.length = config.numHeadersPerBucket) :
    (∃ full', Laid config ((buckets.filterMap List.head?).foldl GlobalPool.returnBucket pool)
        outside full' part) ∧
      ((buckets.filterMap List.head?).foldl GlobalPool.returnBucket pool).next = pool.next ∧
      ∀ header ∉ buckets.flatten,
        ((buckets.filterMap List.head?).foldl GlobalPool.returnBucket pool).bucketInfo header =
          pool.bucketInfo header := by
  induction buckets generalizing pool full with
  | nil => exact ⟨⟨full, by simpa using laid⟩, rfl, fun _ _ => rfl⟩
  | cons first rest ih =>
      obtain ⟨linkedFirst, fullFirst⟩ := linked first List.mem_cons_self
      cases first with
      | nil => exact absurd fullFirst (Nat.ne_of_lt config.bucket_pos)
      | cons bucket more =>
          have split : outside + (((bucket :: more) :: rest).flatten : Multiset Header) =
            outside + (rest.flatten : Multiset Header) +
              ((bucket :: more : List Header) : Multiset Header) := by
            rw [List.flatten_cons, ← Multiset.coe_add]
            abel
          rw [split] at laid
          obtain ⟨laidRest, sameNext, sameInfo⟩ := ih
            (laid.returnBucket linkedFirst fullFirst)
            fun headers member => linked headers (List.mem_cons_of_mem _ member)
          refine ⟨laidRest, sameNext, fun header absent => ?_⟩
          rw [List.flatten_cons, List.mem_append, not_or] at absent
          exact (sameInfo header absent.2).trans
            (Function.update_of_ne (List.ne_of_not_mem_cons absent.1) _ _)

end Link

/-! ## Steps -/

section Take

variable {pool : GlobalPool} {outside : Multiset Header} {full : List (List Header)}
  {part headers : List Header}

/-- The headers of a failing take go to the partial bucket. -/
theorem Laid.failAllocation
    (laid : Laid config pool (outside + (headers : Multiset Header)) full part)
    (linked : Linked pool.next headers.head? headers)
    (short : headers.length < config.numHeadersPerBucket)
    (fits : part.length + headers.length ≤ config.numHeadersPerBucket) :
    ∃ after full' part', failAllocation config pool headers.length headers.head? =
      (after, .failure) ∧ Laid config after outside full' part' := by
  cases headers with
  | nil => exact ⟨pool, full, part, rfl, by simpa using laid⟩
  | cons bucket rest =>
      obtain ⟨full', part', after⟩ :=
        (laid.setNumHeaders (bucket :: rest).length List.mem_cons_self).returnPartialBucket_fits
          linked (Function.update_self _ _ _) short fits
      refine ⟨_, full', part', ?_, after⟩
      simp only [MemPool.failAllocation, List.head?_cons, List.length_cons, ne_eq,
        Nat.succ_ne_zero, not_false_eq_true, if_true]

theorem Laid.failAllocation_overflow
    (laid : Laid config pool (outside + (headers : Multiset Header)) full part)
    (short : headers.length < config.numHeadersPerBucket)
    (overflow : config.numHeadersPerBucket < part.length + headers.length) :
    ∃ after bucket count, MemPool.failAllocation config pool headers.length headers.head? =
      (after, .failure) ∧ after.partialBucket = some bucket ∧
        after.bucketInfo bucket = .numHeaders count ∧ count < 0 := by
  cases headers with
  | nil => exact absurd laid.chains.part_length (Nat.lt_asymm overflow)
  | cons bucket rest =>
      obtain ⟨head, count, atHead, counted, negative⟩ :=
        (laid.setNumHeaders (bucket :: rest).length List.mem_cons_self).returnPartialBucket_overflow
          (Function.update_self _ _ _) short overflow
      refine ⟨_, head, count, ?_, atHead, counted, negative⟩
      simp only [MemPool.failAllocation, List.head?_cons, List.length_cons, ne_eq,
        Nat.succ_ne_zero, not_false_eq_true, if_true]

/-- **A take yields a full bucket, or fails with all headers carved that there
were.** -/
theorem Laid.takeBucket (laid : Laid config pool outside full part) (grants : ℕ) :
    (∃ (after : GlobalPool) (full' : List (List Header)) (headers : List Header),
      takeBucket config grants pool = (after, .success headers.head?) ∧
      Laid config after (outside + (headers : Multiset Header)) full' part ∧
      Linked after.next headers.head? headers ∧
      headers.length = config.numHeadersPerBucket ∧
      (pool.bucketLifo = [] → config.numHeadersPerBucket ≤ available config grants pool)) ∨
    pool.bucketLifo = [] ∧ available config grants pool < config.numHeadersPerBucket ∧
      ∃ (after : GlobalPool) (headers : List Header),
        MemPool.takeBucket config grants pool =
          MemPool.failAllocation config after headers.length headers.head? ∧
        Laid config after (outside + (headers : Multiset Header)) full part ∧
        Linked after.next headers.head? headers ∧
        headers.length = available config grants pool := by
  rw [MemPool.takeBucket]
  cases lifo : pool.bucketLifo with
  | cons bucket rest =>
      obtain ⟨headers, others, isFull, linked, after⟩ := laid.popBucket lifo
      exact Or.inl ⟨_, others, headers, by rw [← linked.head], after, linked.head ▸ linked, isFull,
        fun empty => absurd empty (List.cons_ne_nil _ _)⟩
  | nil =>
      obtain ⟨after, headers, laidAfter, linked, result⟩ := allocateHeaders_spec
        grants (show Laid config pool (outside + (([] : List Header) : Multiset Header)) full part
          by simpa using laid) (show Linked pool.next none [] from rfl) config.bucket_pos
      rw [List.length_nil, Nat.zero_add] at result
      rcases result with ⟨equation, isFull, enough⟩ | ⟨equation, all, notFull⟩
      · cases headers with
        | nil => exact absurd isFull (Nat.ne_of_lt config.bucket_pos)
        | cons bucket rest =>
            exact Or.inl ⟨_, full, bucket :: rest, equation,
              laidAfter.setNumHeaders _ List.mem_cons_self, linked, isFull, fun _ => enough⟩
      · exact Or.inr ⟨rfl, all ▸ notFull, after, headers, equation, laidAfter, linked, all⟩

end Take

variable {s : State}

/-- The headers of a returned bucket, and those still handed out. -/
theorem handedOut_split {handed headers : List Header} (nodup : headers.Nodup)
    (owned : ∀ header ∈ headers, header ∈ handed) :
    (handed : Multiset Header) =
      (handed.diff headers : List Header) + (headers : Multiset Header) := by
  rw [← Multiset.coe_sub]
  have below : (headers : Multiset Header) ≤ handed :=
    (Multiset.le_iff_subset (Multiset.coe_nodup.mpr nodup)).mpr owned
  exact (tsub_add_cancel_of_le below).symm

theorem Invariant.takeBucket {grants : ℕ} (invariant : Invariant config s)
    (fits : Fits config s (.takeBucket grants)) :
    Invariant config (step config s (.takeBucket grants)) := by
  obtain ⟨full, part, laid⟩ := invariant
  rw [step]
  rcases laid.takeBucket grants with
    ⟨after, full', headers, equation, laidAfter, linked, isFull, -⟩ |
    ⟨empty, less, after, headers, equation, laidAfter, linked, all⟩
  · refine ⟨full', part, ?_⟩
    rw [equation]
    change Laid config after (follow after.next config.numHeadersPerBucket headers.head? ++
      s.handedOut : List Header) full' part
    rw [← isFull, linked.follow, ← Multiset.coe_add, Multiset.add_comm]
    exact laidAfter
  · have enough := fits empty less
    rw [laid.partialCount, ← all] at enough
    obtain ⟨final, full', part', failed, laidFinal⟩ :=
      laidAfter.failAllocation linked (all ▸ less) (by exact_mod_cast enough)
    rw [equation, failed]
    exact ⟨full', part', laidFinal⟩

theorem Invariant.returnBucket {headers : List Header} (invariant : Invariant config s) :
    Invariant config (step config s (.returnBucket headers)) := by
  obtain ⟨full, part, laid⟩ := invariant
  rw [step]
  cases first : headers.head? with
  | none => exact ⟨full, part, laid⟩
  | some bucket =>
      dsimp only
      split
      · rename_i allowed
        obtain ⟨⟨nodup, owned⟩, isFull⟩ := allowed
        rw [List.flatten_singleton] at nodup owned
        have linked : Laid config (linkBucket s.pool headers) s.handedOut full part :=
          laid.linkBucket owned
        rw [handedOut_split nodup owned] at linked
        exact ⟨headers :: full, part,
          linked.returnBucket (first ▸ linkBucket_linked nodup) isFull⟩
      · exact ⟨full, part, laid⟩

/-- The state of the pool before the current bucket of a destroyed local pool is
returned. -/
theorem Laid.destroyLocalPool {full : List (List Header)} {part : List Header}
    {buckets : List (List Header)} {current : List Header} {bucket : Header}
    (laid : Laid config s.pool s.handedOut full part)
    (allowed : IsLocalPool config s buckets current) (first : current.head? = some bucket) :
    ∃ pool full', Laid config pool
        ((s.handedOut.diff (current ++ buckets.flatten) : List Header) +
          (current : Multiset Header)) full' part ∧
      Linked pool.next (some bucket) current ∧
      pool.bucketInfo bucket = .numHeaders current.length ∧
      MemPool.destroyLocalPool config (MemPool.linkBuckets s.pool (current :: buckets))
        (buckets.filterMap List.head?) bucket =
        if current.length = config.numHeadersPerBucket then pool.returnBucket bucket
        else returnPartialBucket config pool bucket := by
  obtain ⟨⟨nodup, owned⟩, allFull, -, -⟩ := allowed
  obtain ⟨laidLinked, linked⟩ := laid.linkBuckets owned nodup
  have nodupParts := nodup
  rw [List.flatten_cons] at nodup owned nodupParts
  have split := handedOut_split nodup owned
  rw [← Multiset.coe_add, ← Multiset.add_assoc] at split
  rw [split] at laidLinked
  obtain ⟨⟨full', laidFull⟩, sameNext, sameInfo⟩ := laidLinked.returnBuckets
    fun headers member => ⟨(linked headers (List.mem_cons_of_mem _ member)).1,
      allFull headers member⟩
  have absent : bucket ∉ buckets.flatten := fun member =>
    (List.nodup_append.mp nodupParts).2.2 bucket (List.mem_of_mem_head? first) bucket member rfl
  obtain ⟨linkedCurrent, counted⟩ := linked current List.mem_cons_self
  have count := (sameInfo bucket absent).trans (counted bucket first)
  refine ⟨_, full', laidFull, ?_, count, ?_⟩
  · rw [sameNext, ← first]
    exact linkedCurrent
  · simp only [MemPool.destroyLocalPool, count, BucketInfo.count, Nat.cast_inj]

theorem Invariant.destroyLocalPool {buckets : List (List Header)} {current : List Header}
    (invariant : Invariant config s)
    (fits : Fits config s (.destroyLocalPool buckets current)) :
    Invariant config (step config s (.destroyLocalPool buckets current)) := by
  obtain ⟨full, part, laid⟩ := invariant
  rw [step]
  cases first : current.head? with
  | none => exact ⟨full, part, laid⟩
  | some bucket =>
      dsimp only
      split
      · rename_i allowed
        obtain ⟨pool, full', laidPool, linked, counted, equation⟩ :=
          laid.destroyLocalPool allowed first
        rw [equation]
        split
        · rename_i isFull
          exact ⟨current :: full', part, laidPool.returnBucket linked isFull⟩
        · rename_i notFull
          have short := Nat.lt_of_le_of_ne allowed.2.2.1 notFull
          have enough := fits allowed short
          rw [laid.partialCount] at enough
          exact laidPool.returnPartialBucket_fits linked counted short (by exact_mod_cast enough)
      · exact ⟨full, part, laid⟩

/-- **One event keeps the invariant if its bucket fits.** -/
theorem Invariant.step {event : Event} (invariant : Invariant config s)
    (fits : Fits config s event) : Invariant config (step config s event) := by
  cases event with
  | takeBucket grants => exact invariant.takeBucket fits
  | returnBucket headers => exact invariant.returnBucket
  | destroyLocalPool buckets current => exact invariant.destroyLocalPool fits

/-- A negative count in the partial bucket is not sound. -/
theorem not_sound_of_negative (bucket : Header) (count : ℤ) (negative : count < 0)
    (atHead : s.pool.partialBucket = some bucket)
    (counted : s.pool.bucketInfo bucket = .numHeaders count) : ¬Sound config s := by
  intro sound
  obtain ⟨headers, -, recorded, -⟩ := sound.partialBucket bucket atHead
  have same := BucketInfo.numHeaders.inj (counted.symm.trans recorded)
  exact absurd (same ▸ negative) (Int.not_lt.mpr (Int.natCast_nonneg _))

/-- **An event whose bucket does not fit makes the state unsound.** -/
theorem Invariant.not_sound {event : Event} (invariant : Invariant config s)
    (overflows : ¬Fits config s event) : ¬Sound config (MemPool.step config s event) := by
  obtain ⟨full, part, laid⟩ := invariant
  cases event with
  | takeBucket grants =>
      simp only [Fits, Classical.not_imp, not_le, laid.partialCount] at overflows
      obtain ⟨empty, less, overflow⟩ := overflows
      rw [MemPool.step]
      rcases laid.takeBucket grants with
        ⟨-, -, -, -, -, -, -, enough⟩ | ⟨-, -, after, headers, equation, laidAfter, -, all⟩
      · exact absurd (enough empty) (Nat.not_le_of_lt less)
      · rw [← all] at less overflow
        obtain ⟨final, bucket, count, failed, atHead, counted, negative⟩ :=
          laidAfter.failAllocation_overflow less (by exact_mod_cast overflow)
        rw [equation, failed]
        exact not_sound_of_negative bucket count negative atHead counted
  | returnBucket headers => exact absurd trivial overflows
  | destroyLocalPool buckets current =>
      simp only [Fits, Classical.not_imp, not_le, laid.partialCount] at overflows
      obtain ⟨allowed, short, overflow⟩ := overflows
      rw [MemPool.step]
      cases first : current.head? with
      | none => exact absurd (List.head?_eq_none_iff.mp first) allowed.2.2.2
      | some bucket =>
          dsimp only
          obtain ⟨pool, full', laidPool, -, counted, equation⟩ :=
            laid.destroyLocalPool allowed first
          obtain ⟨head, count, atHead, recorded, negative⟩ :=
            laidPool.returnPartialBucket_overflow counted short (by exact_mod_cast overflow)
          rw [if_pos allowed, equation, if_neg (Nat.ne_of_lt short)]
          exact not_sound_of_negative head count negative atHead recorded

/-- **A failing take keeps what it has carved.** -/
theorem Invariant.failureKeeps {event : Event} (invariant : Invariant config s)
    (fits : Fits config s event) : FailureKeeps config s event := by
  rintro grants rfl failed header carved fresh
  obtain ⟨full, part, laid⟩ := invariant
  obtain ⟨full', part', after⟩ := Invariant.takeBucket ⟨full, part, laid⟩ fits
  obtain ⟨place, here, -⟩ := after.sound.onePlace header carved
  refine ⟨place, ?_, here⟩
  rintro rfl
  obtain ⟨headers, rfl, member⟩ := here
  have same : (MemPool.step config s (.takeBucket grants)).handedOut = s.handedOut := by
    rw [MemPool.step]
    split
    · rename_i equation
      rw [equation] at failed
      exact absurd failed (by simp)
    · rfl
    · rfl
  rw [same] at member
  exact fresh ((laid.complete header).mp (Multiset.mem_add.mpr (Or.inl member)))

/-! ## Runs -/

/-- Runs in which every bucket fits keep the invariant. -/
theorem run_invariant {events : List Event}
    (fits : ∀ before event, before ++ [event] <+: events → Fits config (run config before) event) :
    Invariant config (run config events) := by
  induction events using List.reverseRecOn with
  | nil => exact invariant_init
  | append_singleton before event ih =>
      rw [run_append_singleton]
      apply Invariant.step
      · exact ih fun earlier other reached =>
          fits earlier other (reached.trans (List.prefix_append _ _))
      · exact fits before event (List.prefix_refl _)

/-- **No header is lost or duplicated and all counts are right, in every state of a
run, exactly if no bucket overflows the partial one.**  A pool has fewer than `2 ^ 31` headers in
a bucket and in a page. -/
theorem sound_iff (config : Config) (events : List Event) :
    ((∀ before, before <+: events → Sound config (run config before)) ∧
      ∀ before event, before ++ [event] <+: events →
        FailureKeeps config (run config before) event) ↔
      ∀ before event, before ++ [event] <+: events → Fits config (run config before) event := by
  constructor
  · rintro ⟨sound, -⟩
    have step_fits : ∀ before event, before ++ [event] <+: events →
        Invariant config (run config before) → Fits config (run config before) event := by
      intro before event reached invariant
      by_contra overflows
      apply invariant.not_sound overflows
      rw [← run_append_singleton]
      exact sound _ reached
    have invariant : ∀ before, before <+: events → Invariant config (run config before) := by
      intro before
      induction before using List.reverseRecOn with
      | nil => exact fun _ => invariant_init
      | append_singleton before event ih =>
          intro reached
          have earlier := ih ((List.prefix_append _ _).trans reached)
          rw [run_append_singleton]
          exact earlier.step (step_fits before event reached earlier)
    exact fun before event reached =>
      step_fits before event reached (invariant before ((List.prefix_append _ _).trans reached))
  · intro fits
    have invariant : ∀ before, before <+: events → Invariant config (run config before) :=
      fun before reached => run_invariant fun earlier other shorter =>
        fits earlier other (shorter.trans reached)
    constructor
    · intro before reached
      obtain ⟨full, part, laid⟩ := invariant before reached
      exact laid.sound
    · intro before event reached
      exact (invariant before ((List.prefix_append _ _).trans reached)).failureKeeps
        (fits before event reached)

/-- Buckets of three headers, and pages with room for six. -/
def smallConfig : Config where
  numHeadersPerBucket := 3
  headerSize := 16
  headerOffset := 0
  pageSize := 160
  sizeofHeader := 16
  sizeofPage := 64
  bucket_pos := by decide
  sizeof_pos := by decide
  header_fits := by decide
  page_provides := by decide
  bucket_lt := by decide
  page_lt := by decide

/-- Two local pools are destroyed with two headers each in their only buckets: the
partial bucket holds one header and records -1. -/
theorem not_sound_run :
    ¬Sound smallConfig (run smallConfig
      [.takeBucket 1, .takeBucket 0, .destroyLocalPool [] [⟨0, 0⟩, ⟨0, 16⟩],
        .destroyLocalPool [] [⟨0, 48⟩, ⟨0, 64⟩]]) := by
  refine not_sound_of_negative ⟨0, 16⟩ (-1) (by decide) ?_ ?_
  · decide +kernel
  · decide +kernel

end ArgobotsReduction.Memory.MemPool
