import ArgobotsReduction.Scheduling.CostAware

/-!
# The estimates of one rank

The pushes and pops of one rank, in any order.  The ring buffer of the rank is a queue: every
pop returns the oldest estimate that has not been popped, or the marker -1 when there is none
(`estimates_fifo`).
-/

set_option autoImplicit false

namespace ArgobotsReduction.Scheduling.CostAware

/-- An operation on the metadata of the rank.  Estimates are not negative. -/
inductive Operation where
  | push (est : ℚ) (est_nonneg : 0 ≤ est)
  | pop

namespace Operation

/-- The metadata after the operation, and what a pop returns. -/
def apply (pm : PoolMeta) : Operation → PoolMeta × Option ℚ
  | push est _ => (wsPushTaskEstimate pm est, none)
  | pop => ((wsPopTaskEstimate pm).2, some (wsPopTaskEstimate pm).1)

/-- What the operation does to a queue of estimates. -/
def onQueue (queue : List ℚ) : Operation → List ℚ × Option ℚ
  | push est _ => (queue ++ [est], none)
  | pop => (queue.tail, some (queue.head?.getD (-1)))

end Operation

/-- The metadata after some operations, and what these return. -/
def perform : PoolMeta → List Operation → PoolMeta × List (Option ℚ)
  | pm, [] => (pm, [])
  | pm, operation :: operations =>
      let (pm, result) := operation.apply pm
      let (pm, results) := perform pm operations
      (pm, result :: results)

/-- What some operations do to a queue of estimates. -/
def performOnQueue : List ℚ → List Operation → List ℚ × List (Option ℚ)
  | queue, [] => (queue, [])
  | queue, operation :: operations =>
      let (queue, result) := operation.onQueue queue
      let (queue, results) := performOnQueue queue operations
      (queue, result :: results)

/-- The metadata hold a queue.  A pop returns the marker only when the queue is empty, and
clamps nothing; a push that finds the buffer full adds to the queue like any other. -/
structure Queues (pm : PoolMeta) (queue : List ℚ) : Prop where
  stores : Stores pm queue
  nonneg : ∀ est ∈ queue, 0 ≤ est
  marker : (wsPopTaskEstimate pm).1 = -1 ↔ queue = []
  clamps : ∀ est rest, pm.estimates.pop = some (est, rest) →
    0 ≤ pm.sumEstimated - est ∧ 0 ≤ pm.count - 1
  full : pm.estimates.Full → ∀ est,
    (wsPushTaskEstimate pm est).estimates.toList = queue ++ [est]

theorem Stores.queues {pm : PoolMeta} {queue : List ℚ} (stores : Stores pm queue)
    (nonneg : ∀ est ∈ queue, 0 ≤ est) : Queues pm queue where
  stores := stores
  nonneg := nonneg
  marker := by
    cases queue with
    | nil => simp [stores.pop_nil]
    | cons est queue =>
        have positive := nonneg est List.mem_cons_self
        rw [(stores.pop_cons fun other member => nonneg other (List.mem_cons_of_mem _ member)).1]
        refine iff_of_false (fun marker => ?_) (List.cons_ne_nil _ _)
        rw [marker] at positive
        exact absurd positive (by decide)
  clamps est rest taken := by
    have popped := pm.estimates.toList_pop
    rw [taken, stores.estimates] at popped
    subst popped
    exact stores.unclamped fun other member => nonneg other (List.mem_cons_of_mem _ member)
  full _ est := (stores.push est).estimates

/-- One operation does to the metadata what it does to their queue. -/
theorem Queues.apply {pm : PoolMeta} {queue : List ℚ} (queues : Queues pm queue)
    (operation : Operation) :
    (operation.apply pm).2 = (operation.onQueue queue).2 ∧
      Queues (operation.apply pm).1 (operation.onQueue queue).1 := by
  cases operation with
  | push est est_nonneg =>
      refine ⟨rfl, (queues.stores.push est).queues fun other member => ?_⟩
      rcases List.mem_append.mp member with before | last
      · exact queues.nonneg other before
      · rwa [List.mem_singleton.mp last]
  | pop =>
      cases queue with
      | nil =>
          rw [Operation.apply, queues.stores.pop_nil]
          exact ⟨rfl, queues⟩
      | cons est queue =>
          have others : ∀ other ∈ queue, 0 ≤ other := fun other member =>
            queues.nonneg other (List.mem_cons_of_mem _ member)
          obtain ⟨first, rest⟩ := queues.stores.pop_cons others
          exact ⟨congrArg some first, rest.queues others⟩

/-- Operations do to the metadata what they do to their queue. -/
theorem Queues.perform {pm : PoolMeta} {queue : List ℚ} (queues : Queues pm queue)
    (operations : List Operation) :
    (CostAware.perform pm operations).2 = (performOnQueue queue operations).2 ∧
      Queues (CostAware.perform pm operations).1 (performOnQueue queue operations).1 := by
  induction operations generalizing pm queue with
  | nil => exact ⟨rfl, queues⟩
  | cons operation operations ih =>
      obtain ⟨result, after⟩ := queues.apply operation
      obtain ⟨results, last⟩ := ih after
      exact ⟨congrArg₂ List.cons result results, last⟩

/-- **The estimates of a rank are a queue.** -/
theorem estimates_fifo (initialCapacity : ℕ) (operations : List Operation) :
    (perform (poolMetaInitOne initialCapacity) operations).2 =
        (performOnQueue [] operations).2 ∧
      Queues (perform (poolMetaInitOne initialCapacity) operations).1
        (performOnQueue [] operations).1 := by
  have empty : Queues (poolMetaInitOne initialCapacity) [] :=
    (stores_init initialCapacity).queues fun _ member => absurd member List.not_mem_nil
  exact empty.perform operations

end ArgobotsReduction.Scheduling.CostAware
