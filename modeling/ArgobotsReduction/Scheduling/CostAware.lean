import Mathlib.Algebra.BigOperators.Group.List.Basic
import Mathlib.Algebra.Order.BigOperators.Group.List
import Mathlib.Algebra.Order.Field.Rat
import Mathlib.Data.List.FinRange
import ArgobotsReduction.Containers.RingBuffer
import ArgobotsReduction.Scheduling.RotatedPools

/-!
# The cost-aware work-stealing scheduler

Next to every global pool the scheduler keeps a `pool_meta_t`: the estimated
costs of the queued tasks in a ring buffer, their sum and their number.  A
scheduler that takes a task from a pool removes one estimate, and steals from
the pool with the largest estimated sum.

The metadata are indexed by global rank.  The pools of scheduler `i` are the
global ones rotated by `i` (`schedPools`), and `sched_init` records the rank of
the stream that creates the scheduler, one and the same for all of them.  So
scheduler `i` takes the task from the global pool `(i + k) % num` and the
estimate from rank `k`, and these agree for scheduler 0 only.

The positions and the capacity of a ring buffer are numbers here, and an `int` in
the code: a capacity stays below `2 ^ 30`, so that it can still be doubled.

* `accurate_iff` — in a run the metadata describe the queues in every state
  reached exactly when only scheduler 0 takes tasks;
* `stealLaw_iff` — a scheduler steals from the most loaded other pool, for a
  vector of loads, exactly when it is scheduler 0 or finds nothing to steal.
-/

set_option autoImplicit false

namespace ArgobotsReduction.Scheduling.CostAware

open Containers

/-! ## The metadata of a pool -/

/-- A task in a queue, with its estimated cost. -/
structure Task where
  ult : ℕ
  cost : ℚ
  cost_nonneg : 0 ≤ cost

/-- `pool_meta_t`, without its mutex: each function below holds it throughout. -/
structure PoolMeta where
  sumEstimated : ℚ
  count : ℤ
  estimates : RingBuffer ℚ

/-- `pool_meta_init_one` -/
def poolMetaInitOne (initialCapacity : ℕ) : PoolMeta where
  sumEstimated := 0
  count := 0
  estimates :=
    { buffer := fun _ => 0
      head := 0
      tail := 0
      capacity := if 0 < initialCapacity then initialCapacity else 1024
      head_lt := by split <;> omega
      tail_lt := by split <;> omega }

/-- `ws_push_task_estimate` on the metadata of its rank. -/
def wsPushTaskEstimate (pm : PoolMeta) (est : ℚ) : PoolMeta where
  sumEstimated := pm.sumEstimated + est
  count := pm.count + 1
  estimates := pm.estimates.push (fun _ => 0) est

/-- `ws_pop_task_estimate` on the metadata of its rank: the estimate, or -1, and
the new metadata. -/
def wsPopTaskEstimate (pm : PoolMeta) : ℚ × PoolMeta :=
  match pm.estimates.pop with
  | none => (-1, pm)
  | some (est, rest) =>
      (est,
        { sumEstimated := if pm.sumEstimated - est < 0 then 0 else pm.sumEstimated - est
          count := if pm.count - 1 < 0 then 0 else pm.count - 1
          estimates := rest })

/-- The metadata hold some estimates, in order, with their number and their sum. -/
structure Stores (pm : PoolMeta) (stored : List ℚ) : Prop where
  estimates : pm.estimates.toList = stored
  count : pm.count = stored.length
  sum : pm.sumEstimated = stored.sum

theorem stores_init (initialCapacity : ℕ) : Stores (poolMetaInitOne initialCapacity) [] where
  estimates := RingBuffer.toList_eq_nil _ rfl
  count := rfl
  sum := rfl

theorem Stores.push {pm : PoolMeta} {stored : List ℚ} (stores : Stores pm stored) (est : ℚ) :
    Stores (wsPushTaskEstimate pm est) (stored ++ [est]) where
  estimates := by rw [wsPushTaskEstimate, RingBuffer.toList_push, stores.estimates]
  count := by
    rw [wsPushTaskEstimate, stores.count, List.length_append, List.length_singleton]
    exact (Nat.cast_succ _).symm
  sum := by
    rw [wsPushTaskEstimate, stores.sum, List.sum_append, List.sum_singleton]

/-- Nothing is stored, and a pop returns the empty marker. -/
theorem Stores.pop_nil {pm : PoolMeta} (stores : Stores pm []) :
    wsPopTaskEstimate pm = (-1, pm) := by
  have popped := pm.estimates.toList_pop
  rw [stores.estimates] at popped
  rw [wsPopTaskEstimate]
  cases taken : pm.estimates.pop with
  | none => rfl
  | some pair => simp [taken] at popped

/-- The first estimate is popped, and what is left of the number and of the sum is not
negative. -/
theorem Stores.unclamped {pm : PoolMeta} {est : ℚ} {stored : List ℚ}
    (stores : Stores pm (est :: stored)) (nonneg : ∀ other ∈ stored, 0 ≤ other) :
    0 ≤ pm.sumEstimated - est ∧ 0 ≤ pm.count - 1 := by
  have sum := stores.sum
  have count := stores.count
  rw [List.sum_cons] at sum
  rw [List.length_cons, Nat.cast_succ] at count
  rw [sum, count, add_sub_cancel_left, add_sub_cancel_right]
  exact ⟨List.sum_nonneg nonneg, Int.natCast_nonneg _⟩

/-- A pop takes the first estimate off.  Nothing is clamped. -/
theorem Stores.pop_cons {pm : PoolMeta} {est : ℚ} {stored : List ℚ}
    (stores : Stores pm (est :: stored)) (nonneg : ∀ other ∈ stored, 0 ≤ other) :
    (wsPopTaskEstimate pm).1 = est ∧ Stores (wsPopTaskEstimate pm).2 stored := by
  obtain ⟨sumLeft, countLeft⟩ := stores.unclamped nonneg
  have popped := pm.estimates.toList_pop
  rw [stores.estimates] at popped
  rw [wsPopTaskEstimate]
  cases taken : pm.estimates.pop with
  | none => simp [taken] at popped
  | some pair =>
      obtain ⟨first, rest⟩ := pair
      simp only [taken, List.cons.injEq] at popped
      obtain ⟨rfl, others⟩ := popped
      refine ⟨rfl, others.symm, ?_, ?_⟩
      · change (if pm.count - 1 < 0 then 0 else pm.count - 1) = _
        rw [if_neg (Int.not_lt.mpr countLeft), stores.count, List.length_cons, Nat.cast_succ]
        exact add_sub_cancel_right _ _
      · change (if pm.sumEstimated - est < 0 then 0 else pm.sumEstimated - est) = _
        rw [if_neg (not_lt.mpr sumLeft), stores.sum, List.sum_cons, add_sub_cancel_left]

/-- The metadata describe a queue: the estimates are its costs, in order, with
their number and their sum. -/
structure Describes (pm : PoolMeta) (queue : List Task) : Prop where
  estimates : pm.estimates.toList = queue.map Task.cost
  count : pm.count = queue.length
  sum : pm.sumEstimated = (queue.map Task.cost).sum

theorem describes_iff {pm : PoolMeta} {queue : List Task} :
    Describes pm queue ↔ Stores pm (queue.map Task.cost) :=
  ⟨fun ⟨estimates, count, sum⟩ => ⟨estimates, by rw [count, List.length_map], sum⟩,
    fun ⟨estimates, count, sum⟩ => ⟨estimates, by rw [count, List.length_map], sum⟩⟩

theorem describes_init (initialCapacity : ℕ) : Describes (poolMetaInitOne initialCapacity) [] :=
  describes_iff.mpr (stores_init initialCapacity)

theorem Describes.push {pm : PoolMeta} {queue : List Task} (describes : Describes pm queue)
    (task : Task) : Describes (wsPushTaskEstimate pm task.cost) (queue ++ [task]) := by
  rw [describes_iff, List.map_append, List.map_singleton]
  exact (describes_iff.mp describes).push task.cost

/-- Removing the first task and the first estimate keeps them in step. -/
theorem Describes.pop {pm : PoolMeta} {task : Task} {queue : List Task}
    (describes : Describes pm (task :: queue)) : Describes (wsPopTaskEstimate pm).2 queue := by
  have stores := describes_iff.mp describes
  rw [List.map_cons] at stores
  refine describes_iff.mpr (stores.pop_cons fun cost member => ?_).2
  obtain ⟨other, -, rfl⟩ := List.mem_map.mp member
  exact other.cost_nonneg

/-! ## States and schedulers -/

/-- The queues of the global pools and the metadata of the ranks. -/
structure State (num : ℕ) where
  queue : Fin num → List Task
  poolMeta : Fin num → PoolMeta

variable {num : ℕ}

/-- `ws_get_pool_estimated_load` -/
def wsGetPoolEstimatedLoad (s : State num) (rank : Fin num) : ℚ := (s.poolMeta rank).sumEstimated

/-- The loop of `ws_find_heaviest_pool` over some ranks: the largest load so far
and its rank. -/
def findHeaviest (self : Fin num) (load : Fin num → ℚ) :
    List (Fin num) → ℚ × Option (Fin num) → ℚ × Option (Fin num)
  | [], best => best
  | i :: ranks, (maxLoad, victim) =>
      if i = self then findHeaviest self load ranks (maxLoad, victim)
      else if load i > maxLoad ∧ load i > 0 then findHeaviest self load ranks (load i, some i)
      else findHeaviest self load ranks (maxLoad, victim)

/-- `ws_find_heaviest_pool`, with `none` for -1. -/
def wsFindHeaviestPool (self : Fin num) (load : Fin num → ℚ) : Option (Fin num) :=
  (findHeaviest self load (List.finRange num) (0, none)).2

/-- A scheduler: its list of global pools and the rank in its `ws_sched_data_t`. -/
structure Sched (num : ℕ) where
  pools : Fin num → Fin num
  rank : Fin num

/-- The scheduler `i` that `ABT_create_ws_scheds_cost_aware` creates on the
stream with the given rank, which its `sched_init` records. -/
def createWsSchedsCostAware (rank i : Fin num) : Sched num where
  pools := schedPools i
  rank := rank

/-- The global pool a scheduler pops from in an iteration of `sched_run`, and the
rank it removes an estimate from, when it takes a task at all. -/
def taken (sched : Sched num) (s : State num) : Option (Fin num × Fin num) :=
  match s.queue (sched.pools sched.rank) with
  | _ :: _ => some (sched.pools sched.rank, sched.rank)
  | [] =>
      match wsFindHeaviestPool sched.rank (wsGetPoolEstimatedLoad s) with
      | none => none
      | some victim =>
          match s.queue (sched.pools victim) with
          | _ :: _ => some (sched.pools victim, victim)
          | [] => none

/-- Pop a task from a pool and an estimate from a rank. -/
def State.take (s : State num) (pool rank : Fin num) : State num where
  queue := Function.update s.queue pool (s.queue pool).tail
  poolMeta := Function.update s.poolMeta rank (wsPopTaskEstimate (s.poolMeta rank)).2

/-- Push a task to a pool and its cost to the metadata of the pool. -/
def State.put (s : State num) (pool : Fin num) (task : Task) : State num where
  queue := Function.update s.queue pool (s.queue pool ++ [task])
  poolMeta := Function.update s.poolMeta pool (wsPushTaskEstimate (s.poolMeta pool) task.cost)

/-- One iteration of `sched_run`. -/
def iterate (sched : Sched num) (s : State num) : State num :=
  match taken sched s with
  | none => s
  | some (pool, rank) => s.take pool rank

/-- What happens in a run: a task is pushed, or a scheduler runs an iteration. -/
inductive Event (num : ℕ) where
  | push (pool : Fin num) (task : Task)
  | iterate (i : Fin num)

def State.init (num : ℕ) : State num where
  queue := fun _ => []
  poolMeta := fun _ => poolMetaInitOne 1024

/-- One event, with the schedulers created on the stream with the given rank. -/
def step (rank : Fin num) (s : State num) : Event num → State num
  | .push pool task => s.put pool task
  | .iterate i => iterate (createWsSchedsCostAware rank i) s

/-- The state after some events. -/
def run (rank : Fin num) (events : List (Event num)) : State num :=
  events.foldl (step rank) (State.init num)

theorem run_append_singleton (rank : Fin num) (events : List (Event num)) (event : Event num) :
    run rank (events ++ [event]) = step rank (run rank events) event := by
  rw [run, List.foldl_append, List.foldl_cons, List.foldl_nil, run]

/-! ## The metadata along a run -/

/-- The metadata of every rank describe the pool with that index. -/
def Accurate (s : State num) : Prop := ∀ p, Describes (s.poolMeta p) (s.queue p)

theorem accurate_init : Accurate (State.init num) := fun _ => describes_init 1024

theorem Accurate.put {s : State num} (accurate : Accurate s) (pool : Fin num) (task : Task) :
    Accurate (s.put pool task) := by
  intro p
  rcases eq_or_ne p pool with rfl | other
  · simpa [State.put] using (accurate p).push task
  · simpa [State.put, other] using accurate p

/-- What a scheduler takes stands at the same place of its pool list as the rank
of the estimate. -/
theorem taken_spec {sched : Sched num} {s : State num} {pool rank : Fin num}
    (takes : taken sched s = some (pool, rank)) :
    pool = sched.pools rank ∧ ∃ task queue, s.queue pool = task :: queue := by
  rw [taken] at takes
  split at takes
  next task queue here =>
    obtain ⟨rfl, rfl⟩ := Prod.mk.inj (Option.some.inj takes)
    exact ⟨rfl, task, queue, here⟩
  next =>
    split at takes
    next => simp at takes
    next victim found =>
      split at takes
      next task queue here =>
        obtain ⟨rfl, rfl⟩ := Prod.mk.inj (Option.some.inj takes)
        exact ⟨rfl, task, queue, here⟩
      next => simp at takes

/-- Taking a task and the estimate of the same pool keeps the metadata. -/
theorem Accurate.take {s : State num} (accurate : Accurate s) {pool : Fin num} {task : Task}
    {queue : List Task} (here : s.queue pool = task :: queue) : Accurate (s.take pool pool) := by
  intro p
  rcases eq_or_ne p pool with rfl | other
  · have describes := accurate p
    rw [here] at describes
    simpa [State.take, here] using describes.pop
  · simpa [State.take, other] using accurate p

/-- Taking a task and an estimate of different pools breaks the metadata. -/
theorem not_accurate_take {s : State num} (accurate : Accurate s) {pool rank : Fin num}
    {task : Task} {queue : List Task} (here : s.queue pool = task :: queue)
    (different : pool ≠ rank) : ¬ Accurate (s.take pool rank) := by
  intro after
  have before := (accurate pool).count
  have count := (after pool).count
  simp only [State.take, Function.update_self, Function.update_of_ne different, here,
    List.tail_cons] at count
  rw [here, count, List.length_cons] at before
  omega

/-- An iteration of scheduler 0 keeps the metadata. -/
theorem Accurate.iterate {s : State num} (accurate : Accurate s) {rank i : Fin num}
    (first : taken (createWsSchedsCostAware rank i) s ≠ none → i.val = 0) :
    Accurate (CostAware.iterate (createWsSchedsCostAware rank i) s) := by
  rw [CostAware.iterate]
  cases takes : taken (createWsSchedsCostAware rank i) s with
  | none => exact accurate
  | some pair =>
      obtain ⟨pool, k⟩ := pair
      obtain ⟨place, task, queue, here⟩ := taken_spec takes
      obtain rfl : pool = k :=
        place.trans ((schedPools_eq_self_iff i k).mpr (first (by simp [takes])))
      exact accurate.take here

/-- The first task taken by another scheduler breaks the metadata. -/
theorem not_accurate_iterate {s : State num} (accurate : Accurate s) {rank i : Fin num}
    (takes : taken (createWsSchedsCostAware rank i) s ≠ none) (other : i.val ≠ 0) :
    ¬ Accurate (iterate (createWsSchedsCostAware rank i) s) := by
  obtain ⟨⟨pool, k⟩, takes⟩ := Option.ne_none_iff_exists'.mp takes
  obtain ⟨place, task, queue, here⟩ := taken_spec takes
  rw [iterate, takes]
  refine not_accurate_take accurate here fun same => other ?_
  exact (schedPools_eq_self_iff i k).mp (place.symm.trans same)

/-- **The load estimates describe the queues exactly as long as scheduler 0 alone
takes tasks.** -/
theorem accurate_iff (rank : Fin num) (events : List (Event num)) :
    (∀ before, before <+: events → Accurate (run rank before)) ↔
      ∀ before i, before ++ [.iterate i] <+: events →
        taken (createWsSchedsCostAware rank i) (run rank before) ≠ none → i.val = 0 := by
  constructor
  · intro accurate before i reached takes
    by_contra other
    refine not_accurate_iterate
      (accurate before ((List.prefix_append _ _).trans reached)) takes other ?_
    have after := accurate _ reached
    rwa [run_append_singleton] at after
  · intro first before
    induction before using List.reverseRecOn with
    | nil => exact fun _ => accurate_init
    | append_singleton before event ih =>
        intro reached
        have accurate := ih ((List.prefix_append _ _).trans reached)
        rw [run_append_singleton]
        cases event with
        | push pool task => exact accurate.put pool task
        | iterate i => exact accurate.iterate (first before i reached)

/-- Two schedulers created on stream 0: a task is pushed to pool 1, and scheduler 1
takes it and leaves its estimate behind. -/
theorem not_accurate_run :
    ¬ Accurate (run (0 : Fin 2) [.push 1 ⟨0, 1, by decide⟩, .iterate 1]) := by
  intro accurate
  exact absurd (accurate 1).count (by decide)

/-! ## Victim selection -/

/-- What the loop keeps: the best load is not negative, it bounds the loads seen,
and the victim, if there is one, has it. -/
structure Best (own : Fin num) (load : Fin num → ℚ) (seen : List (Fin num))
    (best : ℚ × Option (Fin num)) : Prop where
  nonneg : 0 ≤ best.1
  bound : ∀ q ∈ seen, q ≠ own → load q ≤ best.1
  zero : best.2 = none → best.1 = 0
  victim : ∀ v, best.2 = some v → v ≠ own ∧ load v = best.1 ∧ 0 < best.1

theorem best_findHeaviest {self : Fin num} {load : Fin num → ℚ} {seen : List (Fin num)}
    (ranks : List (Fin num)) {best : ℚ × Option (Fin num)} (invariant : Best self load seen best) :
    Best self load (seen ++ ranks) (findHeaviest self load ranks best) := by
  induction ranks generalizing seen best with
  | nil => simpa [findHeaviest] using invariant
  | cons i ranks ih =>
      obtain ⟨maxLoad, victim⟩ := best
      have shift : seen ++ i :: ranks = (seen ++ [i]) ++ ranks := by simp
      rw [shift, findHeaviest]
      split
      next own =>
        refine ih { invariant with bound := fun q member different => ?_ }
        rcases List.mem_append.mp member with before | here
        · exact invariant.bound q before different
        · exact absurd ((List.mem_singleton.mp here).trans own) different
      next other =>
        split
        next larger =>
          refine ih
            { nonneg := larger.2.le
              bound := fun q member different => ?_
              zero := fun missing => by simp at missing
              victim := fun v found => ?_ }
          · rcases List.mem_append.mp member with before | here
            · exact (invariant.bound q before different).trans larger.1.le
            · rw [List.mem_singleton.mp here]
          · obtain rfl := Option.some.inj found
            exact ⟨other, rfl, larger.2⟩
        next smaller =>
          refine ih { invariant with bound := fun q member different => ?_ }
          rcases List.mem_append.mp member with before | here
          · exact invariant.bound q before different
          · rw [List.mem_singleton.mp here]
            by_contra larger
            exact smaller ⟨not_le.mp larger, invariant.nonneg.trans_lt (not_le.mp larger)⟩

theorem best_wsFindHeaviestPool (self : Fin num) (load : Fin num → ℚ) :
    Best self load (List.finRange num) (findHeaviest self load (List.finRange num) (0, none)) := by
  have start : Best self load [] (0, none) :=
    { nonneg := le_rfl
      bound := fun _ member => absurd member List.not_mem_nil
      zero := fun _ => rfl
      victim := fun _ found => by simp at found }
  simpa using best_findHeaviest (List.finRange num) start

/-- The victim has a positive load, the largest of the other ranks. -/
theorem wsFindHeaviestPool_eq_some {self v : Fin num} {load : Fin num → ℚ}
    (found : wsFindHeaviestPool self load = some v) :
    v ≠ self ∧ 0 < load v ∧ ∀ q, q ≠ self → load q ≤ load v := by
  have best := best_wsFindHeaviestPool self load
  obtain ⟨other, equal, positive⟩ := best.victim v found
  rw [← equal] at positive
  refine ⟨other, positive, fun q different => ?_⟩
  rw [equal]
  exact best.bound q (List.mem_finRange q) different

/-- There is no victim exactly when no other rank has a positive load. -/
theorem wsFindHeaviestPool_eq_none {self : Fin num} {load : Fin num → ℚ} :
    wsFindHeaviestPool self load = none ↔ ∀ q, q ≠ self → load q ≤ 0 := by
  have best := best_wsFindHeaviestPool self load
  constructor
  · intro missing q different
    rw [← best.zero missing]
    exact best.bound q (List.mem_finRange q) different
  · intro low
    by_contra found
    obtain ⟨v, found⟩ := Option.ne_none_iff_exists'.mp found
    obtain ⟨other, positive, -⟩ := wsFindHeaviestPool_eq_some found
    exact absurd (low v other) (not_le.mpr positive)

/-- The pool that scheduler `i` pops from first.  On stream 0 it is pool `i`. -/
def ownPool (rank i : Fin num) : Fin num := schedPools i rank

/-- What is expected of scheduler `i` when its own pool is empty and the
estimated loads are as given: it steals from another pool, with a positive load
that no other pool exceeds, and removes an estimate of that pool; and it steals
nothing when no other pool has a load. -/
structure StealLaw (rank i : Fin num) (load : Fin num → ℚ) : Prop where
  steals : ∀ s : State num, wsGetPoolEstimatedLoad s = load → s.queue (ownPool rank i) = [] →
    ∀ pool k, taken (createWsSchedsCostAware rank i) s = some (pool, k) →
      pool ≠ ownPool rank i ∧ 0 < load pool ∧ (∀ q, q ≠ ownPool rank i → load q ≤ load pool) ∧
        k = pool
  idle : ∀ s : State num, wsGetPoolEstimatedLoad s = load → s.queue (ownPool rank i) = [] →
    (∀ q, q ≠ ownPool rank i → load q = 0) → taken (createWsSchedsCostAware rank i) s = none

/-- With the own pool empty, a task is taken from the place of the victim. -/
theorem taken_of_empty {rank i : Fin num} {s : State num}
    (empty : s.queue (ownPool rank i) = []) :
    taken (createWsSchedsCostAware rank i) s =
      match wsFindHeaviestPool rank (wsGetPoolEstimatedLoad s) with
      | none => none
      | some victim =>
          match s.queue (schedPools i victim) with
          | _ :: _ => some (schedPools i victim, victim)
          | [] => none := by
  have none : s.queue (schedPools i rank) = [] := empty
  simp only [taken, createWsSchedsCostAware, none]

/-- A task taken with the own pool empty was at the place of the victim. -/
theorem taken_of_empty_some {rank i : Fin num} {s : State num}
    (empty : s.queue (ownPool rank i) = []) {pool k : Fin num}
    (takes : taken (createWsSchedsCostAware rank i) s = some (pool, k)) :
    ∃ victim, wsFindHeaviestPool rank (wsGetPoolEstimatedLoad s) = some victim ∧
      pool = schedPools i victim ∧ k = victim := by
  rw [taken_of_empty empty] at takes
  split at takes
  next => simp at takes
  next victim found =>
    split at takes
    next =>
      obtain ⟨rfl, rfl⟩ := Prod.mk.inj (Option.some.inj takes)
      exact ⟨_, found, rfl, rfl⟩
    next => simp at takes

/-- **A scheduler steals as expected exactly when it is scheduler 0 or no rank
but the recorded one has a load.** -/
theorem stealLaw_iff (rank i : Fin num) (load : Fin num → ℚ) :
    StealLaw rank i load ↔ i.val = 0 ∨ ∀ q, q ≠ rank → load q ≤ 0 := by
  constructor
  · intro law
    by_cases idle : ∀ q, q ≠ rank → load q ≤ 0
    · exact .inr idle
    · refine .inl ?_
      obtain ⟨v, found⟩ := Option.ne_none_iff_exists'.mp
        (wsFindHeaviestPool_eq_none.not.mpr idle)
      obtain ⟨other, -, -⟩ := wsFindHeaviestPool_eq_some found
      -- a state with these loads in which the chosen pool alone has a task
      have emptyOwn : schedPools i v ≠ ownPool rank i :=
        fun same => other (schedPools_injective i same)
      let s : State num :=
        { queue := fun q => if q = schedPools i v then [⟨0, 0, le_rfl⟩] else []
          poolMeta := fun q => { poolMetaInitOne 1024 with sumEstimated := load q } }
      have takes : taken (createWsSchedsCostAware rank i) s = some (schedPools i v, v) := by
        rw [taken_of_empty (if_neg emptyOwn.symm)]
        have chosen : wsFindHeaviestPool rank (wsGetPoolEstimatedLoad s) = some v := found
        have task : s.queue (schedPools i v) = [⟨0, 0, le_rfl⟩] := if_pos rfl
        simp only [chosen, task]
      obtain ⟨-, -, -, same⟩ := law.steals s rfl (if_neg emptyOwn.symm) _ _ takes
      exact (schedPools_eq_self_iff i v).mp same.symm
  · intro condition
    refine ⟨fun s loads empty pool k takes => ?_, fun s loads empty zero => ?_⟩
    · obtain ⟨_, found, rfl, rfl⟩ := taken_of_empty_some empty takes
      rw [loads] at found
      obtain ⟨other, positive, largest⟩ := wsFindHeaviestPool_eq_some found
      rcases condition with first | low
      · have own : ownPool rank i = rank := (schedPools_eq_self_iff i rank).mpr first
        rw [own, (schedPools_eq_self_iff i k).mpr first]
        exact ⟨other, positive, largest, rfl⟩
      · exact absurd (low k other) (not_le.mpr positive)
    · rw [taken_of_empty empty, loads]
      have missing : wsFindHeaviestPool rank load = none := by
        rw [wsFindHeaviestPool_eq_none]
        rcases condition with first | low
        · have own : ownPool rank i = rank := (schedPools_eq_self_iff i rank).mpr first
          rw [own] at zero
          exact fun q different => (zero q different).le
        · exact low
      rw [missing]

/-- With three schedulers and loads 1, 0 and 5, scheduler 1 picks rank 2 and pops
from pool 0. -/
theorem not_stealLaw :
    ¬ StealLaw (0 : Fin 3) 1 (fun q => if q = 0 then 1 else if q = 1 then 0 else 5) := by
  intro law
  let s : State 3 :=
    { queue := fun q => if q = 1 then [] else [⟨0, 1, by decide⟩]
      poolMeta := fun q =>
        { poolMetaInitOne 1024 with sumEstimated := if q = 0 then 1 else if q = 1 then 0 else 5 } }
  have takes : taken (createWsSchedsCostAware 0 1) s = some (0, 2) := by decide
  exact absurd (law.steals s rfl rfl 0 2 takes).2.2.2 (by decide)

end ArgobotsReduction.Scheduling.CostAware
