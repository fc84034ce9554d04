import ArgobotsReduction.Memory.MemPoolRuns
import ArgobotsReduction.Parallel.Machine
import ArgobotsReduction.Utilities.Atoi

/-!
# What a page provides

The number of headers that are left in a page is a quotient of two sizes, and
`ABTI_mem_pool_take_bucket` keeps it in an `int`.  A page goes through a sequence of requests,
each of which asks for what is missing of a bucket, and every request asserts that the page
provides something.

The assertion never fails exactly when a new page holds at least one header and fewer than
`2 ^ 31` (`provides_iff`).  With more, the `int` becomes negative or loses the upper part of the
quotient; the requests for full buckets then lead to a page whose quotient is a multiple of
`2 ^ 32`, and the `int` is zero.  Below that bound, which every pool of the model meets, the
loop of the code takes the same headers as the loop of the model in every state of a run
(`allocateHeaders_eq`, `Fitting.run`).
-/

set_option autoImplicit false

namespace ArgobotsReduction.Memory.PageRequests

open Utilities Parallel

/-- `num_provided`, for a page with some memory left and the headers that are required -/
def numProvided (headerSize memExtraSize : ℕ) (numRequired : ℤ) : ℤ :=
  let numProvided := asInt32 (memExtraSize / headerSize : ℕ)
  if numRequired < numProvided then numRequired else numProvided

/-- The new `mem_extra_size`, which is a `size_t` -/
def leftOver (headerSize memExtraSize : ℕ) (numProvided : ℤ) : ℕ :=
  ((memExtraSize - headerSize * numProvided : ℤ) % 2 ^ 64).toNat

/-- A page in the LIFO and the requests that are made of it.  There is no result if the assertion
fails, and when the page has no memory for another header. -/
def page (headerSize memExtraSize : ℕ) : Machine ℕ ℤ where
  init left := left = memExtraSize
  step left numRequired :=
    if numProvided headerSize left numRequired = 0 then none
    else
      let next := leftOver headerSize left (numProvided headerSize left numRequired)
      if headerSize ≤ next then some next else none

/-- A request asks for at most a bucket. -/
def Asks (numHeadersPerBucket : ℕ) : ℕ → ℤ → Prop := fun _ numRequired =>
  1 ≤ numRequired ∧ numRequired ≤ numHeadersPerBucket

/-- **The assertion of `ABTI_mem_pool_take_bucket` never fails.** -/
def Provides (headerSize memExtraSize numHeadersPerBucket : ℕ) : Prop :=
  ∀ left, (page headerSize memExtraSize).Reachable (Asks numHeadersPerBucket) left →
    ∀ numRequired, Asks numHeadersPerBucket left numRequired →
      numProvided headerSize left numRequired ≠ 0

variable {h s n : ℕ}

/-! ## One request -/

theorem asInt32_natCast (q : ℕ) :
    asInt32 q = if q % 2 ^ 32 < 2 ^ 31 then (q % 2 ^ 32 : ℤ) else (q % 2 ^ 32 : ℤ) - 2 ^ 32 := by
  rw [asInt32, Int.bmod]
  split_ifs <;> omega

/-- A page whose quotient is a multiple of `2 ^ 32` -/
theorem numProvided_eq_zero (multiple : s / h % 2 ^ 32 = 0) (some : 1 ≤ n) :
    numProvided h s n = 0 := by
  rw [numProvided]
  generalize s / h = q at multiple ⊢
  rw [asInt32_natCast]
  split_ifs <;> omega

/-- A page with few headers -/
theorem numProvided_of_lt (few : s / h % 2 ^ 32 < 2 ^ 31) (r : ℕ) :
    numProvided h s r = (min r (s / h % 2 ^ 32) : ℕ) := by
  rw [numProvided]
  generalize s / h = q at few ⊢
  rw [asInt32_natCast, if_pos few]
  split_ifs <;> omega

theorem leftOver_natCast {p : ℕ} (size : s < 2 ^ 64) (fits : h * p ≤ s) :
    leftOver h s p = s - h * p := by
  have cast : ((h * p : ℕ) : ℤ) = h * p := Nat.cast_mul h p
  rw [leftOver, ← cast]
  omega

theorem div_leftOver {p : ℕ} (positive : 0 < h) (size : s < 2 ^ 64) (fits : p ≤ s / h) :
    leftOver h s p / h = s / h - p := by
  have enough : h * p ≤ s := by
    rw [Nat.mul_comm]
    exact (Nat.le_div_iff_mul_le positive).mp fits
  rw [leftOver_natCast size enough]
  exact Nat.sub_mul_div s h p

theorem leftOver_lt (h s : ℕ) (p : ℤ) : leftOver h s p < 2 ^ 64 := by
  rw [leftOver]
  omega

/-! ## Runs -/

theorem page_step (h s left : ℕ) (numRequired : ℤ) :
    (page h s).step left numRequired =
      if numProvided h left numRequired = 0 then none
      else if h ≤ leftOver h left (numProvided h left numRequired) then
        some (leftOver h left (numProvided h left numRequired))
      else none := by
  simp only [page]

theorem reachable_next {left : ℕ} {memExtraSize : ℕ} {numRequired : ℤ}
    (reachable : (page h memExtraSize).Reachable (Asks n) left)
    (asks : Asks n left numRequired) (nonzero : numProvided h left numRequired ≠ 0)
    (more : h ≤ leftOver h left (numProvided h left numRequired)) :
    (page h memExtraSize).Reachable (Asks n)
      (leftOver h left (numProvided h left numRequired)) := by
  refine reachable.next asks ?_
  rw [page_step, if_neg nonzero, if_pos more]

/-- The pages of a run have at least one header and fewer than `2 ^ 31`. -/
theorem provides_of_lt (positive : 0 < h) (size : s < 2 ^ 64) (one : 0 < s / h)
    (few : s / h < 2 ^ 31) : Provides h s n := by
  intro left reachable numRequired asks
  have holds : left < 2 ^ 64 ∧ 0 < left / h ∧ left / h < 2 ^ 31 := by
    refine Machine.invariant (fun left => left < 2 ^ 64 ∧ 0 < left / h ∧ left / h < 2 ^ 31) ?_ ?_
      reachable
    · rintro left rfl
      exact ⟨size, one, few⟩
    · rintro left required next - ⟨least, most⟩ ⟨size, one, few⟩ stepped
      obtain ⟨required, rfl⟩ := Int.eq_ofNat_of_zero_le (Int.le_trans Int.one_nonneg least)
      rw [page_step] at stepped
      split_ifs at stepped with zero more
      obtain rfl := Option.some.inj stepped
      refine ⟨leftOver_lt .., Nat.div_pos more positive, ?_⟩
      have same := Nat.mod_eq_of_lt (few.trans (by decide : 2 ^ 31 < 2 ^ 32))
      rw [numProvided_of_lt (by rw [same]; exact few), same,
        div_leftOver positive size (Nat.min_le_right ..)]
      omega
  obtain ⟨size, one, few⟩ := holds
  obtain ⟨required, rfl⟩ := Int.eq_ofNat_of_zero_le (Int.le_trans Int.one_nonneg asks.1)
  rw [numProvided_of_lt (by omega)]
  have least : 1 ≤ (required : ℤ) := asks.1
  omega

/-- Requests for full buckets take the quotient down to a multiple of `2 ^ 32`. -/
theorem not_provides_of_multiple (positive : 0 < h) (some : 1 ≤ n) (r : ℕ) :
    ∀ left, (page h s).Reachable (Asks n) left → left < 2 ^ 64 → 2 ^ 32 ≤ left / h →
      left / h % 2 ^ 32 = r → r < 2 ^ 31 → ¬ Provides h s n := by
  induction r using Nat.strong_induction_on with
  | _ r ih =>
      intro left reachable size large remains few provides
      have asks : Asks n left n := ⟨by omega, le_rfl⟩
      have nonzero := provides left reachable n asks
      have provided := numProvided_of_lt (h := h) (s := left) (by omega) n
      rw [remains] at provided
      have next := reachable_next reachable asks nonzero
      rw [provided] at next nonzero
      have quotient := div_leftOver (h := h) (s := left) (p := min n r) positive size (by omega)
      have more : h ≤ leftOver h left (min n r : ℕ) := by
        by_contra none
        rw [Nat.div_eq_of_lt (Nat.not_le.mp none)] at quotient
        omega
      exact ih (r - min n r) (by omega) _ (next more) (leftOver_lt ..) (by omega) (by omega)
        (by omega) provides

/-- A request for a full bucket of a page with too many headers -/
theorem not_provides_of_ge (positive : 0 < h) (some : 1 ≤ n) (size : s < 2 ^ 63)
    (many : 2 ^ 31 ≤ s / h) : ¬ Provides h s n := by
  have begins : (page h s).Reachable (Asks n) s := .start rfl
  rcases Nat.lt_or_ge (s / h % 2 ^ 32) (2 ^ 31) with few | negative
  · exact not_provides_of_multiple positive some _ s begins (by omega) (by omega) rfl few
  · -- the page "provides" a negative number of headers, and grows
    intro provides
    have asks : Asks n s n := ⟨by omega, le_rfl⟩
    have provided : numProvided h s n = -((2 ^ 32 - s / h % 2 ^ 32 : ℕ) : ℤ) := by
      rw [numProvided]
      generalize s / h = q at negative ⊢
      rw [asInt32_natCast, if_neg (Nat.not_lt.mpr negative)]
      split_ifs <;> omega
    have next := reachable_next begins asks (provides s begins n asks)
    rw [provided] at next
    have most : h * (2 ^ 32 - s / h % 2 ^ 32) ≤ s := by
      refine (Nat.mul_le_mul_left h ?_).trans (Nat.mul_div_le s h)
      omega
    have grown : leftOver h s (-((2 ^ 32 - s / h % 2 ^ 32 : ℕ) : ℤ)) =
        s + h * (2 ^ 32 - s / h % 2 ^ 32) := by
      have cast : ((h * (2 ^ 32 - s / h % 2 ^ 32) : ℕ) : ℤ) =
          h * (2 ^ 32 - s / h % 2 ^ 32 : ℕ) := Nat.cast_mul _ _
      rw [leftOver, Int.mul_neg, ← cast]
      omega
    rw [grown] at next
    have quotient : (s + h * (2 ^ 32 - s / h % 2 ^ 32)) / h =
        s / h + (2 ^ 32 - s / h % 2 ^ 32) := Nat.add_mul_div_left _ _ positive
    have more : h ≤ s + h * (2 ^ 32 - s / h % 2 ^ 32) := by
      have all : h * (s / h) ≤ s := Nat.mul_div_le s h
      have self : h * 1 ≤ h * (s / h) := Nat.mul_le_mul_left h (by omega)
      omega
    exact provides _ (next more) n asks (numProvided_eq_zero (by omega) some)

/-- **The assertion never fails exactly when a new page holds some headers but fewer than
`2 ^ 31`.** -/
theorem provides_iff (positive : 0 < h) (some : 1 ≤ n) (size : s < 2 ^ 63) :
    Provides h s n ↔ 0 < s / h ∧ s / h < 2 ^ 31 := by
  constructor
  · intro provides
    constructor
    · by_contra none
      have asks : Asks n s n := ⟨by omega, le_rfl⟩
      have empty : s / h = 0 := Nat.eq_zero_of_not_pos none
      exact provides s (.start rfl) n asks (numProvided_eq_zero (by rw [empty]; rfl) some)
    · by_contra many
      exact not_provides_of_ge positive some size (by omega) provides
  · rintro ⟨one, few⟩
    exact provides_of_lt positive (by omega) one few

/-! ## The requests of a pool -/

section Pools

open MemPool

variable {config : Config} {pool after : GlobalPool}

/-- No page has more memory left than a new one. -/
def Fitting (config : Config) (pool : GlobalPool) : Prop :=
  ∀ page, (pool.pages page).memExtraSize ≤ config.pageSize - config.sizeofPage

theorem Fitting.congr (fitting : Fitting config pool) (same : after.pages = pool.pages) :
    Fitting config after := fun page => same ▸ fitting page

theorem Fitting.update (fitting : Fitting config pool) {page : ℕ} {left : Page}
    (fits : left.memExtraSize ≤ config.pageSize - config.sizeofPage)
    (pages : after.pages = Function.update pool.pages page left) : Fitting config after := by
  intro other
  rw [pages]
  rcases eq_or_ne other page with rfl | different
  · rwa [Function.update_self]
  · rw [Function.update_of_ne different]
    exact fitting other

theorem pages_setNext (pool : GlobalPool) (pointer target : Option Header) :
    (pool.setNext pointer target).pages = pool.pages := by
  cases pointer <;> rfl

theorem pages_setNumHeaders (pool : GlobalPool) (pointer : Option Header) (count : ℤ) :
    (pool.setNumHeaders pointer count).pages = pool.pages := by
  cases pointer <;> rfl

theorem pages_returnPartialBucket (pool : GlobalPool) (bucket : Header) :
    (returnPartialBucket config pool bucket).pages = pool.pages := by
  rw [returnPartialBucket]
  split
  next => rfl
  next first _ =>
    dsimp only
    split
    · rw [pages_setNumHeaders, pages_setNext]
    · exact (pages_setNext ..).trans (pages_setNumHeaders ..)

theorem pages_returnBuckets (buckets : List Header) (pool : GlobalPool) :
    (buckets.foldl GlobalPool.returnBucket pool).pages = pool.pages := by
  induction buckets generalizing pool with
  | nil => rfl
  | cons bucket buckets ih => exact ih _

theorem pages_linkBuckets (pool : GlobalPool) (buckets : List (List Header)) :
    (linkBuckets pool buckets).pages = pool.pages := by
  induction buckets with
  | nil => rfl
  | cons headers buckets ih => exact (pages_setNumHeaders ..).trans ih

theorem Fitting.takePage {grants page left : ℕ} (fitting : Fitting config pool)
    (found : takePage config grants pool = some (page, left, after)) : Fitting config after := by
  unfold MemPool.takePage at found
  split at found
  next =>
    cases found
    exact fitting
  next =>
    split at found
    next => cases found
    next =>
      cases found
      exact fitting.update le_rfl rfl

theorem Fitting.takeMemory (fitting : Fitting config pool) (page provided : ℕ) :
    Fitting config (takeMemory config pool page provided) :=
  fitting.update ((Nat.sub_le ..).trans (fitting page)) rfl

theorem Fitting.failAllocation (fitting : Fitting config pool) (numHeaders : ℕ)
    (head : Option Header) : Fitting config (failAllocation config pool numHeaders head).1 := by
  unfold MemPool.failAllocation
  split
  next => exact fitting
  next =>
    split
    · exact fitting.congr ((pages_returnPartialBucket ..).trans (pages_setNumHeaders ..))
    · exact fitting

theorem Fitting.allocateHeaders {grants numHeaders : ℕ} {head : Option Header}
    (fitting : Fitting config pool) :
    Fitting config (allocateHeaders config grants pool numHeaders head).1 := by
  fun_induction MemPool.allocateHeaders config grants pool numHeaders head with
  | case1 grants pool numHeaders head failed => exact fitting.failAllocation numHeaders head
  | case2 grants pool numHeaders head page left found taking provided zero =>
      exact fitting.takePage taking
  | case3 grants pool numHeaders head page left found taking provided isPos linked filled enough =>
      exact ((fitting.takePage taking).takeMemory page provided).congr
        (pages_setNumHeaders filled ..)
  | case4 grants pool numHeaders head page left found taking provided isPos linked filled more ih =>
      exact ih ((fitting.takePage taking).takeMemory page provided)

theorem Fitting.step {s : State} (fitting : Fitting config s.pool) (event : Event) :
    Fitting config (step config s event).pool := by
  cases event with
  | takeBucket grants =>
      have taken : Fitting config (takeBucket config grants s.pool).1 := by
        rw [takeBucket]
        split
        · exact fitting.congr (pages_setNumHeaders ..)
        · exact fitting.allocateHeaders
      rw [MemPool.step]
      generalize takeBucket config grants s.pool = result at taken ⊢
      obtain ⟨pool, success | failure | assertion⟩ := result <;> exact taken
  | returnBucket headers =>
      rw [MemPool.step]
      split
      next => exact fitting
      next =>
        split
        · exact fitting.congr (pages_setNumHeaders ..)
        · exact fitting
  | destroyLocalPool buckets current =>
      rw [MemPool.step]
      split
      next => exact fitting
      next =>
        split
        · refine fitting.congr ?_
          rw [destroyLocalPool]
          dsimp only
          split
          · exact (pages_returnBuckets ..).trans (pages_linkBuckets ..)
          · exact (pages_returnPartialBucket ..).trans
              ((pages_returnBuckets ..).trans (pages_linkBuckets ..))
        · exact fitting

/-- **No page of a run has more memory left than a new one.** -/
theorem Fitting.run (config : Config) (events : List Event) :
    Fitting config (run config events).pool := by
  induction events using List.reverseRecOn with
  | nil => exact fun _ => Nat.zero_le _
  | append_singleton events event ih =>
      rw [run_append_singleton]
      exact ih.step event

/-- The number that the model of the pool takes from a page -/
theorem numProvided_eq (config : Config) (pool : GlobalPool) {page numHeaders : ℕ}
    (few : (pool.pages page).memExtraSize / config.headerSize < 2 ^ 31)
    (missing : numHeaders ≤ config.numHeadersPerBucket) :
    numProvided config.headerSize (pool.pages page).memExtraSize
        ((config.numHeadersPerBucket : ℤ) - numHeaders) =
      (MemPool.numProvided config pool page numHeaders : ℕ) := by
  have cast : (config.numHeadersPerBucket : ℤ) - numHeaders =
      (config.numHeadersPerBucket - numHeaders : ℕ) := by omega
  have same := Nat.mod_eq_of_lt (few.trans (by decide : 2 ^ 31 < 2 ^ 32))
  rw [cast, numProvided_of_lt (by rw [same]; exact few), MemPool.numProvided, same, Nat.min_comm]

/-- **The loop of the model takes what the loop of the code takes, with its `int`.** -/
theorem allocateHeaders_eq (fitting : Fitting config pool) {grants numHeaders : ℕ}
    {head : Option Header} (missing : numHeaders ≤ config.numHeadersPerBucket) :
    allocateHeaders config grants pool numHeaders head =
      match takePage config grants pool with
      | none => failAllocation config pool numHeaders head
      | some (page, grantsLeft, found) =>
          let provided := numProvided config.headerSize (found.pages page).memExtraSize
            ((config.numHeadersPerBucket : ℤ) - numHeaders)
          if provided = 0 then (found, .assertion)
          else
            let linked := linkHeaders config page (found.pages page).memExtra found.next head
              provided.toNat
            let filled := { takeMemory config found page provided.toNat with next := linked.1 }
            if numHeaders + provided = config.numHeadersPerBucket then
              (filled.setNumHeaders linked.2 config.numHeadersPerBucket, .success linked.2)
            else allocateHeaders config grantsLeft filled (numHeaders + provided.toNat) linked.2 := by
  rw [allocateHeaders]
  cases taking : MemPool.takePage config grants pool with
  | none => rfl
  | some result =>
      obtain ⟨page, grantsLeft, found⟩ := result
      have few : (found.pages page).memExtraSize / config.headerSize < 2 ^ 31 :=
        Nat.lt_of_le_of_lt (Nat.div_le_div_right (fitting.takePage taking page)) config.page_lt
      dsimp only
      rw [numProvided_eq config found few missing, Int.toNat_natCast]
      norm_cast

end Pools

end ArgobotsReduction.Memory.PageRequests
