import Mathlib.Data.List.Flatten
import Mathlib.Data.List.Infix
import ArgobotsReduction.Memory.LocalPool
import ArgobotsReduction.Memory.MemPoolRuns

/-!
# Runs of the local memory pool

The number of headers of a bucket has to move with its first header, and an allocation or a free
may leave the bucket it began with.  So the calls are taken apart by what they find: a bucket with
more than one header (`Holds.alloc_next`), with a bucket before it (`Holds.alloc_step`) or without
(`Holds.alloc_take`), and a bucket with room (`Holds.free_next`) or without (`Holds.free_full`),
which is the same with one bucket of a single header as with many.

Every sequence of calls keeps the invariant; no call dereferences NULL or fails an assertion, no
header is handed out twice, and every returned bucket is full (`local_pool_sound`).  What is
assumed of `ABTI_mem_pool_take_bucket` is what the model of the global pool does
(`takeBucket_fullBucket`).
-/

set_option autoImplicit false

namespace ArgobotsReduction.Memory.LocalPool

open Containers Parallel

universe u

variable {H : Type u} [DecidableEq H] {numHeadersPerBucket : ℕ} {s : State H}
  {lower : List (List H)} {current : List H}

omit [DecidableEq H] in
/-- A bucket depends on its own headers. -/
theorem Bucket.congr {memory memory' : Headers H} {pointer : Option H} {headers : List H}
    (bucket : Bucket memory pointer headers)
    (same : ∀ header ∈ headers, memory'.next header = memory.next header ∧
      memory'.numHeaders header = memory.numHeaders header) : Bucket memory' pointer headers where
  linked := bucket.linked.congr fun header member => (same header member).1
  counted header first := by
    have member : header ∈ headers := (first ▸ bucket.linked).mem_of_some
    rw [(same header member).2]
    exact bucket.counted header first

theorem Headers.write_of_ne (memory : Headers H) {header other : H} (different : other ≠ header)
    (next : Option H) (numHeaders : ℕ) :
    (memory.write header next numHeaders).next other = memory.next other ∧
      (memory.write header next numHeaders).numHeaders other = memory.numHeaders other :=
  ⟨Function.update_of_ne different _ _, Function.update_of_ne different _ _⟩

omit [DecidableEq H] in
@[simp]
theorem Pool.setBucket_self (pool : Pool H) (index : ℕ) (header : H) :
    (pool.setBucket index header).buckets index = some header :=
  Function.update_self ..

omit [DecidableEq H] in
theorem Pool.setBucket_of_ne (pool : Pool H) {index other : ℕ} (different : other ≠ index)
    (header : H) : (pool.setBucket index header).buckets other = pool.buckets other :=
  Function.update_of_ne different ..

omit [DecidableEq H] in
/-- The shifted buckets -/
theorem shiftBuckets_apply (buckets : ℕ → Option H) (turns index : ℕ) :
    shiftBuckets buckets turns index =
      if index < turns then buckets (index + numReturnBuckets) else buckets index := by
  induction turns generalizing index with
  | zero => rfl
  | succ turns ih =>
      rw [shiftBuckets]
      rcases eq_or_ne index turns with rfl | other
      · -- the bucket that is read has not been written yet
        rw [Function.update_self, ih, if_neg (by simp), if_pos (Nat.lt_succ_self index)]
      · rw [Function.update_of_ne other, ih]
        exact if_congr (by omega) rfl rfl

namespace Holds

omit [DecidableEq H] in
/-- The buckets of a pool, with the current one -/
theorem bucket (holds : Holds numHeadersPerBucket s lower current) {index : ℕ} {headers : List H}
    (there : (lower ++ [current])[index]? = some headers) :
    Bucket s.memory (s.pool.buckets index) headers := by
  rcases Nat.lt_or_ge index lower.length with before | behind
  · rw [List.getElem?_append_left before] at there
    exact holds.lowerBuckets index headers there
  · rw [List.getElem?_append_right behind, List.getElem?_singleton] at there
    obtain ⟨here, isCurrent⟩ := Option.ite_none_right_eq_some.mp there
    cases isCurrent
    have same : index = lower.length := by omega
    rw [same]
    exact holds.currentBucket

omit [DecidableEq H] in
theorem owns_iff (holds : Holds numHeadersPerBucket s lower current) {header : H} :
    Owns s header ↔ header ∈ lower.flatten ++ current := by
  have flat : lower.flatten ++ current = (lower ++ [current]).flatten := by simp
  rw [flat, List.mem_flatten]
  constructor
  · rintro ⟨index, inside, headers, linked, member⟩
    rw [holds.index] at inside
    have below : index < (lower ++ [current]).length := by simpa using Nat.lt_succ_of_le inside
    obtain ⟨bucket, there⟩ : ∃ bucket, (lower ++ [current])[index]? = some bucket :=
      ⟨_, List.getElem?_eq_getElem below⟩
    have same := (holds.bucket there).linked.unique linked
    exact ⟨headers, same ▸ List.mem_of_getElem? there, member⟩
  · rintro ⟨headers, among, member⟩
    obtain ⟨index, inside, there⟩ := List.getElem_of_mem among
    refine ⟨index, ?_, headers, ?_, member⟩
    · rw [holds.index]
      simpa using Nat.le_of_lt_succ (by simpa using inside)
    · exact (holds.bucket (List.getElem?_eq_some_iff.mpr ⟨inside, there⟩)).linked

omit [DecidableEq H] in
/-- The first header of the current bucket -/
theorem exists_first (holds : Holds numHeadersPerBucket s lower current) :
    ∃ first rest, current = first :: rest ∧ s.pool.bucket s.pool.bucketIndex = some first ∧
      s.memory.numHeaders first = rest.length + 1 ∧
        Linked s.memory.next (s.memory.next first) rest := by
  obtain ⟨linked, counted⟩ := holds.currentBucket
  have nonempty := holds.current_pos
  cases current with
  | nil => exact absurd nonempty (by simp)
  | cons first rest =>
      refine ⟨first, rest, rfl, ?_, counted first linked.1, linked.2⟩
      rw [Pool.bucket, holds.index, if_pos holds.index_lt]
      exact linked.1

omit [DecidableEq H] in
/-- Nobody else touches the pool. -/
theorem untouched (holds : Holds numHeadersPerBucket s lower current) {memory : Headers H}
    (same : Untouched s memory) {held : Finset H} (outside : ∀ header ∈ held, ¬Owns s header) :
    Holds numHeadersPerBucket ⟨memory, s.pool, held⟩ lower current where
  perBucket := holds.perBucket
  index := holds.index
  index_lt := holds.index_lt
  lowerBuckets index headers there :=
    (holds.lowerBuckets index headers there).congr fun header member =>
      same header (holds.owns_iff.mpr (List.mem_append_left _
        (List.mem_flatten.mpr ⟨headers, List.mem_of_getElem? there, member⟩)))
  currentBucket := holds.currentBucket.congr fun header member =>
    same header (holds.owns_iff.mpr (List.mem_append_right _ member))
  lower_full := holds.lower_full
  current_pos := holds.current_pos
  current_le := holds.current_le
  nodup := holds.nodup
  apart header member inUse := outside header inUse (holds.owns_iff.mpr member)

/-- **The last header of the last bucket is allocated, or no bucket can be taken.** -/
theorem alloc_take {first : H} (holds : Holds numHeadersPerBucket s [] [first]) {taken : Taken H}
    (takes : Allowed numHeadersPerBucket s (.alloc taken)) (isPos : 1 ≤ numHeadersPerBucket) :
    ∃ t outcome lower' current', perform s (.alloc taken) = some (t, outcome) ∧
      Holds numHeadersPerBucket t lower' current' ∧ Right numHeadersPerBucket s t outcome := by
  obtain ⟨same, gives⟩ := takes
  have top : s.pool.buckets 0 = some first := holds.currentBucket.linked.1
  have count : s.memory.numHeaders first = 1 := holds.currentBucket.counted first top
  have index : s.pool.bucketIndex = 0 := holds.index
  have here : s.pool.bucket 0 = some first := top
  have mine : Owns s first := holds.owns_iff.mpr (by simp)
  cases given : taken.bucket with
  | none =>
      refine ⟨⟨taken.memory, s.pool, s.held⟩, .failed, [], [first], ?_,
        holds.untouched same fun header inUse owned => ?_, rfl, rfl, same⟩
      · simp [perform, alloc, index, here, count, given]
      · exact holds.apart header (holds.owns_iff.mp owned) inUse
  | some bucket =>
      obtain ⟨headers, ⟨⟨linked, counted⟩, full, nodup⟩, new⟩ := gives bucket given
      refine ⟨⟨taken.memory, { s.pool.setBucket 0 bucket with bucketIndex := 0 },
        insert first s.held⟩, .allocated first, [], headers, ?_, ?_, holds.apart first (by simp), rfl,
        mine, ?_⟩
      · simp [perform, alloc, index, here, count, given]
      · refine ⟨holds.perBucket, rfl, holds.index_lt, by simp, ⟨?_, ?_⟩, by simp, full ▸ isPos,
          full.le, by simpa using nodup, fun header member => ?_⟩
        · exact (s.pool.setBucket_self 0 bucket).symm ▸ linked
        · exact (s.pool.setBucket_self 0 bucket).symm ▸ counted
        · obtain ⟨notMine, unused⟩ := new header (by simpa using member)
          rw [Finset.mem_insert, not_or]
          exact ⟨fun isFirst => notMine (isFirst ▸ mine), unused⟩
      · intro other owned
        exact .inl (by simpa using holds.owns_iff.mp owned)

/-- **The last header of a bucket is allocated, and there is a bucket before it.** -/
theorem alloc_step {before : List (List H)} {bucket : List H} {first : H}
    (holds : Holds numHeadersPerBucket s (before ++ [bucket]) [first]) (taken : Taken H)
    (isPos : 1 ≤ numHeadersPerBucket) :
    ∃ t outcome lower' current', perform s (.alloc taken) = some (t, outcome) ∧
      Holds numHeadersPerBucket t lower' current' ∧ Right numHeadersPerBucket s t outcome := by
  have flat : (before ++ [bucket]).flatten ++ [first] = (before.flatten ++ bucket) ++ [first] := by
    simp
  have index : s.pool.bucketIndex = before.length + 1 := by simpa using holds.index
  obtain ⟨top, rest, same, here, count, -⟩ := holds.exists_first
  obtain ⟨rfl, rfl⟩ := List.cons.inj same
  rw [index] at here
  have nodup := holds.nodup
  rw [flat, List.nodup_append] at nodup
  obtain ⟨others, -, different⟩ := nodup
  have full : bucket.length = numHeadersPerBucket :=
    holds.lower_full bucket (List.mem_append_right _ List.mem_cons_self)
  have fewer : before.length < maxLocalBuckets := by
    have bound := holds.index_lt
    rw [List.length_append] at bound
    exact Nat.lt_of_le_of_lt (Nat.le_add_right _ _) bound
  have kept : Holds numHeadersPerBucket ⟨s.memory, { s.pool with bucketIndex := before.length },
      insert first s.held⟩ before bucket := by
    refine ⟨holds.perBucket, rfl, fewer, fun position headers there => ?_, ?_,
      fun headers member => holds.lower_full headers (List.mem_append_left _ member),
      full ▸ isPos, full.le, others, fun header member => ?_⟩
    · refine holds.lowerBuckets position headers ?_
      rw [List.getElem?_append_left (List.getElem?_eq_some_iff.mp there).1]
      exact there
    · exact holds.lowerBuckets before.length bucket List.getElem?_concat_length
    · rw [Finset.mem_insert, not_or]
      refine ⟨different header member first List.mem_cons_self, holds.apart header ?_⟩
      rw [flat]
      exact List.mem_append_left _ member
  refine ⟨_, .allocated first, before, bucket, ?_, kept, holds.apart first (by simp), rfl,
    holds.owns_iff.mpr (by simp), fun other owned => ?_⟩
  · simp [perform, alloc, here, count, index]
  · have member := holds.owns_iff.mp owned
    rw [flat, List.mem_append, List.mem_singleton] at member
    exact member.symm.imp_right kept.owns_iff.mpr

/-- **A header is allocated, and the next one is the first of its bucket.** -/
theorem alloc_next {first next : H} {rest : List H}
    (holds : Holds numHeadersPerBucket s lower (first :: next :: rest)) (taken : Taken H) :
    ∃ t outcome lower' current', perform s (.alloc taken) = some (t, outcome) ∧
      Holds numHeadersPerBucket t lower' current' ∧ Right numHeadersPerBucket s t outcome := by
  obtain ⟨top, others, same, here, count, linked⟩ := holds.exists_first
  obtain ⟨rfl, rfl⟩ := List.cons.inj same
  obtain ⟨link, linked⟩ := linked
  obtain ⟨-, inCurrent, apart⟩ := List.nodup_append.mp holds.nodup
  obtain ⟨notFirst, remaining⟩ := List.nodup_cons.mp inCurrent
  have kept : Holds numHeadersPerBucket ⟨s.memory.setNumHeaders next (rest.length + 1),
      s.pool.setBucket s.pool.bucketIndex next, insert first s.held⟩ lower (next :: rest) := by
    refine ⟨holds.perBucket, holds.index, holds.index_lt, fun position headers there => ?_,
      ?_, holds.lower_full, Nat.le_add_left _ _, Nat.le_of_succ_le holds.current_le, ?_,
      fun header member => ?_⟩
    · have inside : position < lower.length := (List.getElem?_eq_some_iff.mp there).1
      rw [Pool.setBucket_of_ne _ (holds.index ▸ inside.ne)]
      refine (holds.lowerBuckets position headers there).congr fun header member => ⟨rfl, ?_⟩
      refine Function.update_of_ne (apart header ?_ next (by simp)) _ _
      exact List.mem_flatten.mpr ⟨headers, List.mem_of_getElem? there, member⟩
    · rw [← holds.index, Pool.setBucket_self]
      refine ⟨⟨rfl, linked⟩, fun header isNext => ?_⟩
      cases isNext
      exact Function.update_self ..
    · refine List.nodup_append.mpr ⟨(List.nodup_append.mp holds.nodup).1, remaining, ?_⟩
      intro header before other member
      exact apart header before other (List.mem_cons_of_mem _ member)
    · rw [Finset.mem_insert, not_or]
      rcases List.mem_append.mp member with before | behind
      · exact ⟨apart header before first List.mem_cons_self,
          holds.apart header (List.mem_append_left _ before)⟩
      · exact ⟨ne_of_mem_of_not_mem behind notFirst,
          holds.apart header (List.mem_append_right _ (List.mem_cons_of_mem _ behind))⟩
  refine ⟨_, .allocated first, lower, next :: rest, ?_, kept, holds.apart first (by simp), rfl,
    holds.owns_iff.mpr (by simp), fun other owned => ?_⟩
  · simp [perform, alloc, here, count, link]
  · have member := holds.owns_iff.mp owned
    rcases List.mem_append.mp member with before | behind
    · exact .inr (kept.owns_iff.mpr (List.mem_append_left _ before))
    · rcases List.mem_cons.mp behind with rfl | further
      · exact .inl rfl
      · exact .inr (kept.owns_iff.mpr (List.mem_append_right _ further))

/-- **An allocation.** -/
theorem alloc (holds : Holds numHeadersPerBucket s lower current) {taken : Taken H}
    (takes : Allowed numHeadersPerBucket s (.alloc taken)) (isPos : 1 ≤ numHeadersPerBucket) :
    ∃ t outcome lower' current', perform s (.alloc taken) = some (t, outcome) ∧
      Holds numHeadersPerBucket t lower' current' ∧ Right numHeadersPerBucket s t outcome := by
  have nonempty := holds.current_pos
  match current with
  | [] => exact absurd nonempty (by simp)
  | first :: next :: rest => exact holds.alloc_next taken
  | [first] =>
      rcases List.eq_nil_or_concat' lower with rfl | ⟨before, bucket, rfl⟩
      · exact holds.alloc_take takes isPos
      · exact holds.alloc_step taken isPos

/-- **A freed header becomes the first of its bucket.** -/
theorem free_next {mem : H} (holds : Holds numHeadersPerBucket s lower current)
    (inUse : mem ∈ s.held) (notFull : current.length ≠ numHeadersPerBucket) :
    ∃ t outcome lower' current', perform s (.free mem) = some (t, outcome) ∧
      Holds numHeadersPerBucket t lower' current' ∧ Right numHeadersPerBucket s t outcome := by
  obtain ⟨first, rest, rfl, here, count, linked⟩ := holds.exists_first
  have notMine : ∀ header ∈ lower.flatten ++ first :: rest, header ≠ mem := fun header member =>
    fun same => holds.apart header member (same ▸ inUse)
  have frame : ∀ header ∈ lower.flatten ++ first :: rest,
      (s.memory.write mem (some first) (rest.length + 2)).next header = s.memory.next header ∧
      (s.memory.write mem (some first) (rest.length + 2)).numHeaders header =
        s.memory.numHeaders header := fun header member =>
    s.memory.write_of_ne (notMine header member) _ _
  have kept : Holds numHeadersPerBucket ⟨s.memory.write mem (some first) (rest.length + 2),
      s.pool.setBucket s.pool.bucketIndex mem, s.held.erase mem⟩ lower (mem :: first :: rest) := by
    refine ⟨holds.perBucket, holds.index, holds.index_lt, fun position headers there => ?_, ?_,
      holds.lower_full, Nat.le_add_left _ _, Nat.lt_of_le_of_ne holds.current_le notFull, ?_,
      fun header member held => ?_⟩
    · have inside : position < lower.length := (List.getElem?_eq_some_iff.mp there).1
      rw [Pool.setBucket_of_ne _ (holds.index ▸ inside.ne)]
      refine (holds.lowerBuckets position headers there).congr fun header member => ?_
      exact frame header (List.mem_append_left _
        (List.mem_flatten.mpr ⟨headers, List.mem_of_getElem? there, member⟩))
    · rw [← holds.index, Pool.setBucket_self]
      refine ⟨⟨rfl, ?_⟩, fun header isMem => ?_⟩
      · have link : (s.memory.write mem (some first) (rest.length + 2)).next mem = some first :=
          Function.update_self ..
        rw [link]
        have chain : Linked s.memory.next (some first) (first :: rest) := ⟨rfl, linked⟩
        refine chain.congr fun header member => ?_
        exact (frame header (List.mem_append_right _ member)).1
      · cases isMem
        exact Function.update_self ..
    · rw [List.nodup_middle]
      exact List.nodup_cons.mpr ⟨fun member => notMine mem member rfl, holds.nodup⟩
    · rw [Finset.mem_erase] at held
      rw [List.mem_append, List.mem_cons] at member
      rcases member with before | rfl | behind
      · exact holds.apart header (List.mem_append_left _ before) held.2
      · exact held.1 rfl
      · exact holds.apart header (List.mem_append_right _ behind) held.2
  refine ⟨_, .freed [], lower, mem :: first :: rest, ?_, kept, by simp, fun header owned => ?_⟩
  · have notFull' : rest.length + 1 ≠ numHeadersPerBucket := notFull
    simp [perform, LocalPool.free, here, count, holds.perBucket, notFull']
  · refine .inl (kept.owns_iff.mpr ?_)
    have member := holds.owns_iff.mp owned
    rw [List.mem_append] at member ⊢
    exact member.imp_right (List.mem_cons_of_mem _)

/-- **A freed header opens the next bucket**, after the first `returned` buckets are gone. -/
theorem opens {mem : H} (kept : ℕ → Option H) (returned index : ℕ)
    (holds : Holds numHeadersPerBucket s lower current) (inUse : mem ∈ s.held)
    (isPos : 1 ≤ numHeadersPerBucket) (full : current.length = numHeadersPerBucket)
    (few : index < maxLocalBuckets)
    (remain : ((lower ++ [current]).drop returned).length = index)
    (shifted : ∀ position < index, kept position = s.pool.buckets (position + returned)) :
    Holds numHeadersPerBucket ⟨s.memory.write mem none 1,
      Pool.setBucket ⟨s.pool.numHeadersPerBucket, index, kept⟩ index mem, s.held.erase mem⟩
      ((lower ++ [current]).drop returned) [mem] := by
  have flat : lower.flatten ++ current = (lower ++ [current]).flatten := by simp
  have sub : ((lower ++ [current]).drop returned).flatten.Sublist (lower.flatten ++ current) := by
    rw [flat]
    nth_rewrite 2 [← List.take_append_drop returned (lower ++ [current])]
    rw [List.flatten_append]
    exact List.sublist_append_right _ _
  have notMine : ∀ header ∈ lower.flatten ++ current, header ≠ mem := fun header member same =>
    holds.apart header member (same ▸ inUse)
  refine ⟨holds.perBucket, remain.symm, remain ▸ few, fun position headers there => ?_, ?_, ?_,
    le_rfl, isPos, ?_, fun header member held => ?_⟩
  · have inside : position < index := remain ▸ (List.getElem?_eq_some_iff.mp there).1
    rw [Pool.setBucket_of_ne _ inside.ne]
    rw [List.getElem?_drop, Nat.add_comm] at there
    have before : Bucket s.memory (kept position) headers := by
      rw [shifted position inside]
      exact holds.bucket there
    refine before.congr fun header member => s.memory.write_of_ne (notMine header ?_) _ _
    rw [flat]
    exact List.mem_flatten.mpr ⟨headers, List.mem_of_getElem? there, member⟩
  · rw [remain, Pool.setBucket_self]
    refine ⟨⟨rfl, Function.update_self ..⟩, fun header isMem => ?_⟩
    cases isMem
    exact Function.update_self ..
  · intro headers member
    rcases List.mem_append.mp (List.mem_of_mem_drop member) with before | last
    · exact holds.lower_full headers before
    · rw [List.mem_singleton.mp last]
      exact full
  · refine List.nodup_append.mpr ⟨holds.nodup.sublist sub, List.nodup_singleton mem, ?_⟩
    intro header member other isMem
    rw [List.mem_singleton.mp isMem]
    exact notMine header (sub.subset member)
  · rw [Finset.mem_erase] at held
    rcases List.mem_append.mp member with before | last
    · exact holds.apart header (sub.subset before) held.2
    · exact held.1 (List.mem_singleton.mp last)

/-- The buckets that are returned are full, and nothing else is gone. -/
theorem opens_right {mem : H} {kept : ℕ → Option H} {returned index : ℕ}
    (holds : Holds numHeadersPerBucket s lower current) (inUse : mem ∈ s.held)
    (full : current.length = numHeadersPerBucket)
    (after : Holds numHeadersPerBucket ⟨s.memory.write mem none 1,
      Pool.setBucket ⟨s.pool.numHeadersPerBucket, index, kept⟩ index mem, s.held.erase mem⟩
      ((lower ++ [current]).drop returned) [mem]) (atMost : returned ≤ lower.length + 1) :
    Right numHeadersPerBucket s ⟨s.memory.write mem none 1,
      Pool.setBucket ⟨s.pool.numHeadersPerBucket, index, kept⟩ index mem, s.held.erase mem⟩
      (.freed ((List.range returned).map s.pool.buckets)) := by
  have flat : lower.flatten ++ current =
      ((lower ++ [current]).take returned).flatten ++
        ((lower ++ [current]).drop returned).flatten := by
    rw [← List.flatten_append, List.take_append_drop]
    simp
  have nodup := holds.nodup
  rw [flat] at nodup
  obtain ⟨first, -, disjoint⟩ := List.nodup_append.mp nodup
  -- a returned bucket is one of the first buckets, and its headers are not written
  have gone : ∀ position headers, ((lower ++ [current]).take returned)[position]? = some headers →
      Bucket (s.memory.write mem none 1) (s.pool.buckets position) headers := by
    intro position headers there
    have member : headers ∈ (lower ++ [current]).take returned := List.mem_of_getElem? there
    rw [List.getElem?_take] at there
    obtain ⟨-, there⟩ := Option.ite_none_right_eq_some.mp there
    refine (holds.bucket there).congr fun header inside => s.memory.write_of_ne ?_ _ _
    rintro rfl
    refine holds.apart header ?_ inUse
    rw [flat]
    exact List.mem_append_left _ (List.mem_flatten.mpr ⟨headers, member, inside⟩)
  refine ⟨fun pointer member => ?_, fun header owned => ?_⟩
  · obtain ⟨position, below, rfl⟩ := List.mem_map.mp member
    rw [List.mem_range] at below
    have inside : position < ((lower ++ [current]).take returned).length := by
      rw [List.length_take, List.length_append, List.length_singleton]
      exact Nat.lt_min.mpr ⟨below, Nat.lt_of_lt_of_le below atMost⟩
    have among := List.getElem_mem inside
    have parts := List.nodup_flatten.mp first
    refine ⟨_, ⟨gone position _ (List.getElem?_eq_getElem inside), ?_, parts.1 _ among⟩,
      fun header there => ?_⟩
    · rcases List.mem_append.mp (List.mem_of_mem_take among) with before | last
      · exact holds.lower_full _ before
      · rw [List.mem_singleton.mp last]
        exact full
    · have early : header ∈ ((lower ++ [current]).take returned).flatten :=
        List.mem_flatten.mpr ⟨_, among, there⟩
      have mine : header ∈ lower.flatten ++ current := by
        rw [flat]
        exact List.mem_append_left _ early
      refine ⟨holds.owns_iff.mpr mine, fun again => ?_, fun held => ?_⟩
      · rcases List.mem_append.mp (after.owns_iff.mp again) with late | isMem
        · exact disjoint header early header late rfl
        · rw [List.mem_singleton] at isMem
          exact holds.apart header mine (isMem ▸ inUse)
      · exact holds.apart header mine (Finset.mem_of_mem_erase held)
  · have mine := holds.owns_iff.mp owned
    rw [flat] at mine
    rcases List.mem_append.mp mine with early | late
    · obtain ⟨headers, among, inside⟩ := List.mem_flatten.mp early
      obtain ⟨position, below, there⟩ := List.getElem_of_mem among
      have position_lt : position < returned :=
        Nat.lt_of_lt_of_le below (List.length_take_le _ _)
      exact .inr ⟨_, List.mem_map_of_mem (List.mem_range.mpr position_lt), headers,
        (gone position headers (List.getElem?_eq_some_iff.mpr ⟨below, there⟩)).linked, inside⟩
    · exact .inl (after.owns_iff.mpr (List.mem_append_left _ late))

/-- **A free that finds the current bucket full.** -/
theorem free_full {mem : H} (holds : Holds numHeadersPerBucket s lower current)
    (inUse : mem ∈ s.held) (isPos : 1 ≤ numHeadersPerBucket)
    (full : current.length = numHeadersPerBucket) :
    ∃ t outcome lower' current', perform s (.free mem) = some (t, outcome) ∧
      Holds numHeadersPerBucket t lower' current' ∧ Right numHeadersPerBucket s t outcome := by
  obtain ⟨first, rest, rfl, here, count, -⟩ := holds.exists_first
  have isFull : s.memory.numHeaders first = s.pool.numHeadersPerBucket := by
    rw [count, holds.perBucket]
    exact full
  have index := holds.index
  have length : (lower ++ [first :: rest]).length = lower.length + 1 := by simp
  by_cases room : s.pool.bucketIndex + 1 = maxLocalBuckets
  · have after := holds.opens (shiftBuckets s.pool.buckets (maxLocalBuckets - numReturnBuckets))
      numReturnBuckets (maxLocalBuckets - numReturnBuckets) inUse isPos full (by decide)
      (by rw [List.length_drop, length, ← index, room])
      (fun position below => by rw [shiftBuckets_apply, if_pos below])
    refine ⟨_, .freed ((List.range numReturnBuckets).map s.pool.buckets), _, _, ?_, after,
      holds.opens_right inUse full after ?_⟩
    · simp [perform, LocalPool.free, here, isFull, room]
    · rw [← index, room]
      decide
  · have after := holds.opens s.pool.buckets 0 (s.pool.bucketIndex + 1) inUse isPos full ?_
      (by rw [List.drop_zero, length, index]) (fun _ _ => rfl)
    · refine ⟨_, .freed ((List.range 0).map s.pool.buckets), _, _, ?_, after,
        holds.opens_right inUse full after (Nat.zero_le _)⟩
      simp [perform, LocalPool.free, here, isFull, room]
    · have bound := holds.index_lt
      omega

/-- **A free.** -/
theorem free {mem : H} (holds : Holds numHeadersPerBucket s lower current) (inUse : mem ∈ s.held)
    (isPos : 1 ≤ numHeadersPerBucket) :
    ∃ t outcome lower' current', perform s (.free mem) = some (t, outcome) ∧
      Holds numHeadersPerBucket t lower' current' ∧ Right numHeadersPerBucket s t outcome := by
  by_cases full : current.length = numHeadersPerBucket
  · exact holds.free_full inUse isPos full
  · exact holds.free_next inUse full

/-- **Every event of a pool.** -/
theorem perform {event : Event H} (holds : Holds numHeadersPerBucket s lower current)
    (isPos : 1 ≤ numHeadersPerBucket) (allowed : Allowed numHeadersPerBucket s event) :
    ∃ t outcome lower' current', LocalPool.perform s event = some (t, outcome) ∧
      Holds numHeadersPerBucket t lower' current' ∧ Right numHeadersPerBucket s t outcome := by
  cases event with
  | alloc taken => exact holds.alloc allowed isPos
  | free mem => exact holds.free allowed isPos
  | others memory held =>
      exact ⟨_, .outside, lower, current, rfl, holds.untouched allowed.1 allowed.2, rfl, allowed.1⟩

end Holds

omit [DecidableEq H] in
/-- The bucket that `ABTI_mem_pool_init_local_pool` takes -/
theorem Begins.holds (begins : Begins numHeadersPerBucket s) (isPos : 1 ≤ numHeadersPerBucket) :
    ∃ lower current, Holds numHeadersPerBucket s lower current := by
  obtain ⟨memory, pool, held⟩ := s
  obtain ⟨garbage, bucket, started, headers, ⟨filled, full, nodup⟩, unused⟩ := begins
  cases started
  refine ⟨[], headers, rfl, rfl, Nat.zero_lt_two, by simp, ?_, by simp, full ▸ isPos, full.le,
    by simpa using nodup, by simpa using unused⟩
  have pointer : Function.update garbage 0 (some bucket) 0 = some bucket := Function.update_self ..
  simp only [List.length_nil, pointer]
  exact filled

/-- **The local pool hands out no header twice.**  In every state that a sequence of calls leads
to, the buckets before the current one are full, the current one has a header and counts its
headers, and no header of the pool is in use; and every further call comes to an end and is
right. -/
theorem local_pool_sound (isPos : 1 ≤ numHeadersPerBucket)
    (reachable : (localPool numHeadersPerBucket H).Reachable (Allowed numHeadersPerBucket) s) :
    ∃ lower current, Holds numHeadersPerBucket s lower current ∧
      ∀ event, Allowed numHeadersPerBucket s event → ∃ t outcome,
        perform s event = some (t, outcome) ∧ Right numHeadersPerBucket s t outcome := by
  have holds : ∃ lower current, Holds numHeadersPerBucket s lower current := by
    refine Machine.invariant_of_returns perform
      (fun s => ∃ lower current, Holds numHeadersPerBucket s lower current) ?_ ?_ ?_ reachable
    · intro s event
      rfl
    · intro s begins
      exact Begins.holds begins isPos
    · rintro s event allowed ⟨lower, current, holds⟩
      obtain ⟨t, outcome, lower', current', performed, after, -⟩ := holds.perform isPos allowed
      exact ⟨t, outcome, performed, lower', current', after⟩
  obtain ⟨lower, current, holds⟩ := holds
  refine ⟨lower, current, holds, fun event allowed => ?_⟩
  obtain ⟨t, outcome, -, -, performed, -, right⟩ := holds.perform isPos allowed
  exact ⟨t, outcome, performed, right⟩

/-- With buckets of one header, the header is allocated and another bucket taken, and the free
opens a second bucket. -/
theorem local_pool_sound_single_headers :
    ∃ s : State ℕ, (localPool 1 ℕ).Reachable (Allowed 1) s ∧ s.pool.bucketIndex = 1 ∧
      ∃ lower current, Holds 1 s lower current ∧
        ∃ t, perform s (.alloc ⟨s.memory, none⟩) = some (t, .allocated 0) ∧
          Right 1 s t (.allocated 0) := by
  let memory : Headers ℕ := ⟨fun _ => none, fun _ => 1⟩
  let first : State ℕ := ⟨memory, ⟨1, 0, Function.update (fun _ => none) 0 (some 0)⟩, ∅⟩
  have single : ∀ header : ℕ, FullBucket 1 memory (some header) [header] := fun header =>
    ⟨⟨⟨rfl, rfl⟩, fun _ _ => rfl⟩, rfl, List.nodup_singleton header⟩
  have begins : Begins 1 first := ⟨fun _ => none, 0, rfl, [0], single 0, by simp [first]⟩
  have holds : Holds 1 first [] [0] :=
    ⟨rfl, rfl, Nat.zero_lt_two, by simp, (single 0).bucket, by simp, le_rfl, le_rfl, by simp,
      by simp [first]⟩
  have reachable : (localPool 1 ℕ).Reachable (Allowed 1) first := .start begins
  have takes : Allowed 1 first (.alloc ⟨memory, some 1⟩) := by
    refine ⟨fun _ _ => ⟨rfl, rfl⟩, fun bucket given => ?_⟩
    cases given
    refine ⟨[1], single 1, fun header member => ?_⟩
    rw [holds.owns_iff, List.mem_singleton.mp member]
    simp [first]
  have second := reachable.next takes rfl
  have third := second.next (e := .free 0) (by simp [Allowed]) rfl
  obtain ⟨lower, current, holds, sound⟩ := local_pool_sound (by decide) third
  refine ⟨_, third, rfl, lower, current, holds, ?_⟩
  obtain ⟨t, outcome, performed, right⟩ := sound (.alloc ⟨_, none⟩)
    ⟨fun _ _ => ⟨rfl, rfl⟩, fun _ given => by cases given⟩
  obtain rfl : outcome = .allocated 0 := (Prod.mk.inj (Option.some.inj performed)).2.symm
  exact ⟨t, performed, right⟩

/-! ## The global pool -/

/-- The members of the headers of the global pool -/
def membersOf (pool : MemPool.GlobalPool) : Headers MemPool.Header :=
  ⟨pool.next, fun header => (pool.bucketInfo header).count.toNat⟩

/-- **`ABTI_mem_pool_take_bucket` does what a local pool relies on**: a success writes to none of
the headers outside the global pool, and gives a full bucket of other headers. -/
theorem takeBucket_fullBucket {config : MemPool.Config} {pool after : MemPool.GlobalPool}
    {outside : Multiset MemPool.Header} {full : List (List MemPool.Header)}
    {part : List MemPool.Header} {grants : ℕ} {bucket : MemPool.Header}
    (laid : MemPool.Laid config pool outside full part)
    (taken : MemPool.takeBucket config grants pool = (after, .success (some bucket))) :
    (∀ header ∈ outside, (membersOf after).next header = (membersOf pool).next header ∧
      (membersOf after).numHeaders header = (membersOf pool).numHeaders header) ∧
      ∃ headers, FullBucket config.numHeadersPerBucket (membersOf after) (some bucket) headers ∧
        ∀ header ∈ headers, header ∉ outside := by
  obtain ⟨headers, linked, isFull, apart, nodup⟩ : ∃ headers,
      Linked after.next (some bucket) headers ∧ headers.length = config.numHeadersPerBucket ∧
        (∀ header ∈ headers, header ∉ outside) ∧ headers.Nodup := by
    rcases laid.takeBucket grants with
      ⟨after', full', headers, equation, laidAfter, linked, isFull, -⟩ |
      ⟨-, -, after', headers, equation, -⟩
    · rw [taken] at equation
      simp only [Prod.mk.injEq, MemPool.TakeResult.success.injEq] at equation
      obtain ⟨rfl, first⟩ := equation
      rw [← first] at linked
      have nodup := (Multiset.nodup_add.mp laidAfter.nodup).1
      refine ⟨headers, linked, isFull, fun header member inside => ?_, ?_⟩
      · exact Multiset.disjoint_left.mp (Multiset.nodup_add.mp nodup).2.2 inside member
      · exact Multiset.coe_nodup.mp (Multiset.nodup_add.mp nodup).2.1
    · exact absurd (equation.symm.trans taken) MemPool.failAllocation_ne_success
  obtain ⟨same, counted⟩ : (∀ header ∈ outside, after.next header = pool.next header ∧
      after.bucketInfo header = pool.bucketInfo header) ∧
      after.bucketInfo bucket = .numHeaders config.numHeadersPerBucket := by
    rw [MemPool.takeBucket] at taken
    cases lifo : pool.bucketLifo with
    | cons first rest =>
        rw [lifo] at taken
        cases taken
        refine ⟨fun header member => ⟨rfl, ?_⟩, Function.update_self ..⟩
        refine Function.update_of_ne ?_ _ _
        rintro rfl
        exact apart header linked.mem_of_some member
    | nil =>
        rw [lifo] at taken
        obtain ⟨frame, counted⟩ := MemPool.allocateHeaders_frame laid.pages taken
        refine ⟨fun header member => frame header ?_, counted bucket rfl⟩
        exact (laid.complete header).mp (Multiset.mem_add.mpr (.inl member))
  refine ⟨fun header member => ?_, headers, ⟨⟨linked, fun header first => ?_⟩, isFull, nodup⟩, apart⟩
  · obtain ⟨link, info⟩ := same header member
    exact ⟨link, congrArg (fun info => info.count.toNat) info⟩
  · cases first
    simp only [membersOf, counted, isFull]
    rfl

end ArgobotsReduction.Memory.LocalPool
