import ArgobotsReduction.Memory.MemPool

/-!
# Returning buckets

A full bucket is pushed on the LIFO (`Laid.returnBucket`).  A bucket that is not
full becomes the partial bucket, is appended to it, or completes it to a full
bucket; as long as both together do not exceed a full bucket the invariant is
kept (`Laid.returnPartialBucket_fits`).  If they do, the partial bucket records a negative
number of headers (`Laid.returnPartialBucket_overflow`): a new one, unless the sum of both
is too large for an `int`.
-/

set_option autoImplicit false

namespace ArgobotsReduction.Memory.MemPool

open Containers
open Utilities (asInt32 asInt32_of_le intMin intMax)

variable {config : Config} {pool : GlobalPool} {outside : Multiset Header}
  {full : List (List Header)} {part headers : List Header} {bucket : Header}

/-- What a bucket outside the pool has in common with the chains of the pool. -/
structure Apart (headers : List Header) (full : List (List Header)) (part : List Header) :
    Prop where
  nodup : headers.Nodup
  part_nodup : part.Nodup
  notPart : ∀ header ∈ headers, header ∉ part
  notFull : ∀ header ∈ headers, header ∉ full.flatten
  partNotFull : ∀ header ∈ part, header ∉ full.flatten

theorem Laid.apart (laid : Laid config pool (outside + (headers : Multiset Header)) full part) :
    Apart headers full part := by
  have nodup := laid.nodup
  simp only [Multiset.nodup_add, Multiset.coe_nodup, Multiset.mem_add,
    Multiset.disjoint_left, Multiset.mem_coe, not_or] at nodup
  obtain ⟨⟨-, nodupHeaders, -⟩, ⟨-, nodupPart, apart⟩, separate⟩ := nodup
  exact
    { nodup := nodupHeaders
      part_nodup := nodupPart
      notPart := fun header member => (separate (Or.inr member)).2
      notFull := fun header member => (separate (Or.inr member)).1
      partNotFull := fun header inPart inFull => apart inFull inPart }

/-- The invariant for a pool with the same pages, where headers changed places. -/
theorem Laid.rearrange {after : GlobalPool} {outside' : Multiset Header}
    {full' : List (List Header)} {part' : List Header}
    (laid : Laid config pool outside full part) (chains : Chains config after full' part')
    (samePages : after.pages = pool.pages) (sameNum : after.numPages = pool.numPages)
    (sameLifo : after.memPageLifo = pool.memPageLifo)
    (same : outside' + (full'.flatten + part' : Multiset Header) =
      outside + (full.flatten + part : Multiset Header)) :
    Laid config after outside' full' part' where
  chains := chains
  pages :=
    { whole := by rw [samePages]; exact laid.pages.whole
      room := by rw [sameLifo, samePages, sameNum]; exact laid.pages.room
      nodup := by rw [sameLifo]; exact laid.pages.nodup }
  nodup := by rw [same]; exact laid.nodup
  complete := by
    intro header
    rw [same, laid.complete, Carved, Carved, samePages, sameNum]

/-! ## Full buckets -/

/-- **A full bucket goes to the LIFO.** -/
theorem Laid.returnBucket
    (laid : Laid config pool (outside + (headers : Multiset Header)) full part)
    (linked : Linked pool.next (some bucket) headers)
    (isFull : headers.length = config.numHeadersPerBucket) :
    Laid config (pool.returnBucket bucket) outside (headers :: full) part := by
  have apart := laid.apart
  have chains := laid.chains
  refine laid.rearrange ?_ rfl rfl rfl ?_
  · exact
      { lifo := List.Forall₂.cons linked chains.lifo
        partialLinked := chains.partialLinked
        full_length := List.forall_mem_cons.mpr ⟨isFull, chains.full_length⟩
        part_length := chains.part_length
        count := by
          intro head atHead
          have linkedPart := chains.partialLinked
          rw [show pool.partialBucket = some head from atHead] at linkedPart
          change Function.update pool.bucketInfo bucket .lifoElem head = _
          rw [Function.update_of_ne (ne_of_mem_of_not_mem linkedPart.mem_of_some
            (apart.notPart bucket linked.mem_of_some))]
          exact chains.count head atHead }
  · rw [List.flatten_cons, ← Multiset.coe_add]
    abel

/-- **A bucket taken from the LIFO is full.** -/
theorem Laid.popBucket {rest : List Header} (laid : Laid config pool outside full part)
    (lifo : pool.bucketLifo = bucket :: rest) :
    ∃ headers others, headers.length = config.numHeadersPerBucket ∧
      Linked pool.next (some bucket) headers ∧
      Laid config
        (({ pool with bucketLifo := rest }).setNumHeaders (some bucket) config.numHeadersPerBucket)
        (outside + (headers : Multiset Header)) others part := by
  have buckets := laid.chains.lifo
  rw [lifo] at buckets
  obtain _ | ⟨linked, linkedRest⟩ := buckets
  rename_i headers others
  have moved : outside + (headers : Multiset Header) + (others.flatten + part : Multiset Header) =
      outside + ((headers :: others).flatten + part : Multiset Header) := by
    rw [List.flatten_cons, ← Multiset.coe_add]
    abel
  have nodup := laid.nodup
  rw [← moved] at nodup
  simp only [Multiset.nodup_add, Multiset.mem_add, Multiset.disjoint_left, Multiset.mem_coe,
    not_or] at nodup
  have notPart : bucket ∉ part := (nodup.2.2 (Or.inr linked.mem_of_some)).2
  refine ⟨headers, others, laid.chains.full_length headers List.mem_cons_self, linked,
    laid.rearrange ?_ rfl rfl rfl moved⟩
  exact
    { lifo := linkedRest
      partialLinked := laid.chains.partialLinked
      full_length := fun l member => laid.chains.full_length l (List.mem_cons_of_mem _ member)
      part_length := laid.chains.part_length
      count := by
        intro head atHead
        have linkedPart := laid.chains.partialLinked
        rw [show pool.partialBucket = some head from atHead] at linkedPart
        change Function.update pool.bucketInfo bucket _ head = _
        rw [Function.update_of_ne (ne_of_mem_of_not_mem linkedPart.mem_of_some notPart)]
        exact laid.chains.count head atHead }

/-! ## Partly filled buckets -/

/-- The chain of a partial bucket with another bucket behind its last header. -/
theorem Linked.join {next : Header → Option Header} {pointer : Option Header}
    {front : List Header} {last : Header} (linked : Linked next pointer (front ++ [last]))
    (other : Linked next (some bucket) headers) (nodup : (front ++ [last]).Nodup)
    (apart : ∀ header ∈ headers, header ∉ front ++ [last]) :
    Linked (Function.update next last (some bucket)) pointer (front ++ [last] ++ headers) := by
  have notFront : last ∉ front := fun member =>
    (List.nodup_append.mp nodup).2.2 last member last List.mem_cons_self rfl
  have notBack : last ∉ headers := fun member =>
    apart last member (List.mem_append_right _ List.mem_cons_self)
  rw [List.append_assoc, List.singleton_append]
  exact linked.splice other notFront notBack

/-- The sum of two counts of a pool, if it is at most a bucket -/
theorem asInt32_sum {partLength length : ℕ}
    (fits : partLength + length ≤ config.numHeadersPerBucket) :
    asInt32 ((partLength : ℤ) + length) = partLength + length := by
  have bound := config.bucket_lt
  exact asInt32_of_le (by unfold intMin; omega) (by unfold intMax; omega)

/-- The sum of two counts that wraps is negative. -/
theorem asInt32_sum_neg {partLength length : ℕ} (short : partLength < config.numHeadersPerBucket)
    (short' : length < config.numHeadersPerBucket) (large : 2 ^ 31 ≤ partLength + length) :
    asInt32 ((partLength : ℤ) + length) < 0 := by
  have bound := config.bucket_lt
  rw [asInt32, Int.bmod]
  split_ifs <;> omega

/-- The bucket becomes the partial bucket. -/
theorem Laid.returnPartialBucket_none
    (laid : Laid config pool (outside + (headers : Multiset Header)) full part)
    (linked : Linked pool.next (some bucket) headers)
    (counted : pool.bucketInfo bucket = .numHeaders headers.length)
    (short : headers.length < config.numHeadersPerBucket) (noPartial : pool.partialBucket = none) :
    Laid config (returnPartialBucket config pool bucket) outside full headers := by
  have linkedPart := laid.chains.partialLinked
  rw [noPartial] at linkedPart
  have noPart : part = [] := by
    cases part with
    | nil => rfl
    | cons => exact absurd linkedPart.1 (by simp)
  rw [returnPartialBucket, noPartial]
  refine laid.rearrange ?_ rfl rfl rfl ?_
  · exact
      { lifo := laid.chains.lifo
        partialLinked := linked
        full_length := laid.chains.full_length
        part_length := short
        count := by
          intro head atHead
          obtain rfl := Option.some.inj atHead
          exact counted }
  · rw [noPart, Multiset.coe_nil]
    abel

/-- The bucket is appended to the partial one, which stays partial. -/
theorem Laid.returnPartialBucket_append {head : Header}
    (laid : Laid config pool (outside + (headers : Multiset Header)) full part)
    (linked : Linked pool.next (some bucket) headers)
    (counted : pool.bucketInfo bucket = .numHeaders headers.length)
    (short : part.length + headers.length < config.numHeadersPerBucket)
    (atHead : pool.partialBucket = some head) :
    Laid config (returnPartialBucket config pool bucket) outside full (part ++ headers) := by
  have apart := laid.apart
  have countPart := laid.chains.count head atHead
  have linkedPart := laid.chains.partialLinked
  rw [atHead] at linkedPart
  have inPart := linkedPart.mem_of_some
  have less : (part.length : ℤ) + headers.length < config.numHeadersPerBucket := by
    exact_mod_cast short
  obtain rfl | ⟨front, last, rfl⟩ := List.eq_nil_or_concat' part
  · exact absurd inPart List.not_mem_nil
  have steps : (((front ++ [last]).length : ℤ) - 1).toNat = front.length := by
    simp
  simp only [returnPartialBucket, atHead, countPart, counted, BucketInfo.count]
  rw [asInt32_sum short.le, if_pos less, steps, linkedPart.walk_eq]
  refine laid.rearrange ?_ rfl rfl rfl ?_
  · exact
      { lifo := lifo_congr laid.chains.lifo fun header member =>
          Function.update_of_ne (ne_of_mem_of_not_mem member
            (apart.partNotFull last (List.mem_append_right _ List.mem_cons_self))) _ _
        partialLinked := by
          change Linked (Function.update pool.next last (some bucket)) pool.partialBucket _
          rw [atHead]
          exact Linked.join linkedPart linked apart.part_nodup apart.notPart
        full_length := laid.chains.full_length
        part_length := by rw [List.length_append]; exact short
        count := by
          intro other atOther
          obtain rfl : head = other := Option.some.inj (atHead.symm.trans atOther)
          change Function.update pool.bucketInfo head _ head = _
          rw [Function.update_self, ← Nat.cast_add, ← List.length_append] }
  · rw [← Multiset.coe_add (front ++ [last])]
    abel

/-- The bucket completes the partial one to a full bucket. -/
theorem Laid.returnPartialBucket_complete {head : Header}
    (laid : Laid config pool (outside + (headers : Multiset Header)) full part)
    (linked : Linked pool.next (some bucket) headers)
    (counted : pool.bucketInfo bucket = .numHeaders headers.length)
    (exactly : part.length + headers.length = config.numHeadersPerBucket)
    (atHead : pool.partialBucket = some head) :
    Laid config (returnPartialBucket config pool bucket) outside ((part ++ headers) :: full) [] := by
  have apart := laid.apart
  have countPart := laid.chains.count head atHead
  have linkedPart := laid.chains.partialLinked
  rw [atHead] at linkedPart
  have inPart := linkedPart.mem_of_some
  have sum : (part.length : ℤ) + headers.length = config.numHeadersPerBucket := by
    exact_mod_cast exactly
  obtain rfl | ⟨front, last, rfl⟩ := List.eq_nil_or_concat' part
  · exact absurd inPart List.not_mem_nil
  have steps : ((config.numHeadersPerBucket : ℤ) - headers.length - 1).toNat = front.length := by
    rw [← sum]
    simp
  simp only [returnPartialBucket, atHead, countPart, counted, BucketInfo.count]
  rw [asInt32_sum exactly.le, if_neg (not_lt.mpr sum.ge), if_neg (not_not.mpr sum), steps,
    linkedPart.walk_eq]
  refine laid.rearrange ?_ rfl rfl rfl ?_
  · exact
      { lifo := by
          refine List.Forall₂.cons ?_ (lifo_congr laid.chains.lifo fun header member =>
            Function.update_of_ne (ne_of_mem_of_not_mem member
              (apart.partNotFull last (List.mem_append_right _ List.mem_cons_self))) _ _)
          exact Linked.join linkedPart linked apart.part_nodup apart.notPart
        partialLinked := rfl
        full_length := by
          refine List.forall_mem_cons.mpr ⟨?_, laid.chains.full_length⟩
          rw [List.length_append]
          exact exactly
        part_length := config.bucket_pos
        count := by
          intro other atOther
          exact absurd atOther (by simp) }
  · rw [List.flatten_cons, ← Multiset.coe_add (front ++ [last] ++ headers),
      ← Multiset.coe_add (front ++ [last]), Multiset.coe_nil]
    abel

/-- **A bucket that fits is merged without loss, and the count stays right.** -/
theorem Laid.returnPartialBucket_fits
    (laid : Laid config pool (outside + (headers : Multiset Header)) full part)
    (linked : Linked pool.next (some bucket) headers)
    (counted : pool.bucketInfo bucket = .numHeaders headers.length)
    (short : headers.length < config.numHeadersPerBucket)
    (fits : part.length + headers.length ≤ config.numHeadersPerBucket) :
    ∃ full' part', Laid config (returnPartialBucket config pool bucket) outside full' part' := by
  cases atHead : pool.partialBucket with
  | none => exact ⟨_, _, laid.returnPartialBucket_none linked counted short atHead⟩
  | some head =>
      rcases Nat.lt_or_eq_of_le fits with less | same
      · exact ⟨_, _, laid.returnPartialBucket_append linked counted less atHead⟩
      · exact ⟨_, _, laid.returnPartialBucket_complete linked counted same atHead⟩

/-- A long list has two elements after its first ones. -/
theorem exists_middle {list : List Header} {count : ℕ} (long : count + 1 < list.length) :
    ∃ front first second rest, list = front ++ first :: second :: rest ∧ front.length = count := by
  induction count generalizing list with
  | zero =>
      obtain _ | ⟨first, _ | ⟨second, rest⟩⟩ := list
      · exact absurd long (by simp)
      · exact absurd long (by simp)
      · exact ⟨[], first, second, rest, rfl, rfl⟩
  | succ count ih =>
      obtain _ | ⟨header, list⟩ := list
      · exact absurd long (by simp)
      · obtain ⟨front, first, second, rest, rfl, length⟩ := ih (Nat.lt_of_succ_lt_succ long)
        exact ⟨header :: front, first, second, rest, rfl, congrArg (· + 1) length⟩

/-- The new partial bucket of a bucket that does not fit has a negative count. -/
theorem Laid.returnPartialBucket_split {head : Header}
    (laid : Laid config pool (outside + (headers : Multiset Header)) full part)
    (counted : pool.bucketInfo bucket = .numHeaders headers.length)
    (short : headers.length < config.numHeadersPerBucket)
    (overflow : config.numHeadersPerBucket < part.length + headers.length)
    (small : part.length + headers.length < 2 ^ 31) (atHead : pool.partialBucket = some head) :
    ∃ fresh, (returnPartialBucket config pool bucket).partialBucket = some fresh ∧
      (returnPartialBucket config pool bucket).bucketInfo fresh =
        .numHeaders (config.numHeadersPerBucket - (part.length + headers.length)) := by
  have linkedPart := laid.chains.partialLinked
  have countPart := laid.chains.count head atHead
  rw [atHead] at linkedPart
  have sum : asInt32 ((part.length : ℤ) + headers.length) = part.length + headers.length :=
    asInt32_of_le (by unfold intMin; omega) (by unfold intMax; omega)
  have more : ¬(part.length : ℤ) + headers.length < config.numHeadersPerBucket := by
    exact_mod_cast Nat.lt_asymm overflow
  have unequal : (part.length : ℤ) + headers.length ≠ config.numHeadersPerBucket := by
    exact_mod_cast Nat.ne_of_gt overflow
  have long : config.numHeadersPerBucket - headers.length - 1 + 1 < part.length := by omega
  obtain ⟨front, last, fresh, rest, split, length⟩ := exists_middle long
  have steps : ((config.numHeadersPerBucket : ℤ) - headers.length - 1).toNat =
      front.length := by omega
  rw [split] at linkedPart
  have nodup := laid.apart.part_nodup
  rw [split, List.append_cons] at nodup
  have notHead : fresh ≠ head := by
    have first : head ∈ front ++ [last] := by
      have headEq := linkedPart.head
      cases front with
      | nil => exact List.mem_singleton.mpr (Option.some.inj headEq)
      | cons other front => exact Option.some.inj headEq ▸ List.mem_cons_self
    exact fun same =>
      (List.nodup_append.mp nodup).2.2 head first fresh List.mem_cons_self same.symm
  refine ⟨fresh, ?_⟩
  simp only [returnPartialBucket, atHead, countPart, counted, BucketInfo.count]
  rw [sum, if_neg more, if_pos unequal, steps, linkedPart.walk_eq, Option.bind_some,
    linkedPart.walk.2.1]
  refine ⟨rfl, ?_⟩
  change Function.update (Function.update pool.bucketInfo fresh _) head _ fresh = _
  rw [Function.update_of_ne notHead, Function.update_self]

/-- A sum that wraps becomes the count of the partial bucket. -/
theorem Laid.returnPartialBucket_wraps {head : Header}
    (laid : Laid config pool (outside + (headers : Multiset Header)) full part)
    (counted : pool.bucketInfo bucket = .numHeaders headers.length)
    (negative : asInt32 ((part.length : ℤ) + headers.length) < 0)
    (atHead : pool.partialBucket = some head) :
    (returnPartialBucket config pool bucket).partialBucket = some head ∧
      (returnPartialBucket config pool bucket).bucketInfo head =
        .numHeaders (asInt32 ((part.length : ℤ) + headers.length)) := by
  have countPart := laid.chains.count head atHead
  have less : asInt32 ((part.length : ℤ) + headers.length) < config.numHeadersPerBucket := by
    omega
  simp only [returnPartialBucket, atHead, countPart, counted, BucketInfo.count]
  rw [if_pos less]
  refine ⟨?_, Function.update_self ..⟩
  generalize walk pool.next _ _ = tail
  cases tail <;> exact atHead

/-- **A bucket that does not fit leaves a negative count.** -/
theorem Laid.returnPartialBucket_overflow
    (laid : Laid config pool (outside + (headers : Multiset Header)) full part)
    (counted : pool.bucketInfo bucket = .numHeaders headers.length)
    (short : headers.length < config.numHeadersPerBucket)
    (overflow : config.numHeadersPerBucket < part.length + headers.length) :
    ∃ head count, (returnPartialBucket config pool bucket).partialBucket = some head ∧
      (returnPartialBucket config pool bucket).bucketInfo head = .numHeaders count ∧
        count < 0 := by
  cases atHead : pool.partialBucket with
  | none =>
      have linkedPart := laid.chains.partialLinked
      rw [atHead] at linkedPart
      have empty := linkedPart.unique (show Linked pool.next none [] from rfl)
      rw [empty, List.length_nil, Nat.zero_add] at overflow
      exact absurd short (Nat.lt_asymm overflow)
  | some head =>
      rcases Nat.lt_or_ge (part.length + headers.length) (2 ^ 31) with small | large
      · obtain ⟨fresh, atFresh, count⟩ :=
          laid.returnPartialBucket_split counted short overflow small atHead
        exact ⟨fresh, _, atFresh, count, by omega⟩
      · have negative := asInt32_sum_neg laid.chains.part_length short large
        obtain ⟨sameHead, count⟩ := laid.returnPartialBucket_wraps counted negative atHead
        exact ⟨head, _, sameHead, count, negative⟩

end ArgobotsReduction.Memory.MemPool
