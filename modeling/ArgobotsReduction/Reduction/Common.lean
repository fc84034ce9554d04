import Mathlib.Data.List.FinRange
import Mathlib.Data.Option.NAry
import ArgobotsReduction.Parallel.Footprint
import ArgobotsReduction.Parallel.Tiling
import ArgobotsReduction.Parallel.TreeFold

/-!
# What the two reductions share

`reduce_common` exists in two variants, chosen at compile time.  Both cut the
array into one slice for each ULT (`threadArgs`), and every ULT folds its slice
into a local result before it meets the others.

The memory the ULTs share holds their local results, the slots of
`thread_results` and `*result`; a location is empty before its `malloc` and
after its `free`.  One action is one call of `reduce_func` or `memcpy`, together
with the `malloc` in front of it, or one `free`.
-/

set_option autoImplicit false

namespace ArgobotsReduction.Reduction

open Parallel

universe u v

/-- The fields of `reduction_context_t` that a reduction reads. -/
structure ReductionContext (Pool : Type v) where
  numPools : ℕ
  pools : Fin numPools → Pool
  numThreads : ℕ
  numPools_pos : 0 < numPools
  numThreads_pos : 0 < numThreads

/-- The arguments of one reduction ULT. -/
structure ReductionArgs (α : Type u) where
  array : ℕ → α
  numElems : ℕ
  defaultReductionValue : α

/-- A ULT as it is created: its pool and the code it runs. -/
structure Ult (Pool : Type v) (A : Type u) where
  pool : Pool
  body : Code A

/-- The fold of the slice of a ULT. -/
def localFold {α : Type u} (reduceFunc : α → α → α) (args : ReductionArgs α) : α :=
  ((List.range args.numElems).map args.array).foldl reduceFunc args.defaultReductionValue

/-! ## Slices -/

section Slices

variable {α : Type u} {Pool : Type v} (context : ReductionContext Pool) (array : ℕ → α)
  (numElems : ℕ) (defaultReductionValue : α)

/-- The pools are taken in turn. -/
theorem ReductionContext.mod_numPools_lt (thread : ℕ) :
    thread % context.numPools < context.numPools :=
  Nat.mod_lt _ context.numPools_pos

/-- The pool that ULT `i` is created in. -/
def ReductionContext.poolOf (i : Fin context.numThreads) : Pool :=
  context.pools ⟨i % context.numPools, Nat.mod_lt _ context.numPools_pos⟩

def elemsPerThread : ℕ := numElems / context.numThreads

/-- The slice of ULT `i`: the last one takes the remainder. -/
def threadArgs (i : Fin context.numThreads) : ReductionArgs α where
  array j := array (i * elemsPerThread context numElems + j)
  numElems :=
    if i.val = context.numThreads - 1 then numElems - i * elemsPerThread context numElems
    else elemsPerThread context numElems
  defaultReductionValue := defaultReductionValue

/-- The indices of the array that ULT `i` reads. -/
def slice (i : Fin context.numThreads) : List ℕ :=
  (List.range (threadArgs context array numElems defaultReductionValue i).numElems).map
    (i * elemsPerThread context numElems + ·)

/-- The slices cut the indices of the array into consecutive parts. -/
def slices : Tiling context.numThreads numElems :=
  .lastTakesRest context.numThreads numElems context.numThreads_pos

variable {context}

theorem slices_cut (i : Fin context.numThreads) :
    (slices context numElems).cut i = i * elemsPerThread context numElems := by
  simp [slices, Tiling.lastTakesRest, elemsPerThread]

theorem slices_cut_succ (i : Fin context.numThreads) :
    (slices context numElems).cut (i + 1) = i * elemsPerThread context numElems +
      (threadArgs context array numElems defaultReductionValue i).numElems := by
  have within := i.isLt
  have fits : i * (numElems / context.numThreads) ≤ numElems :=
    (Nat.mul_le_mul_right _ within.le).trans (Nat.mul_div_le numElems context.numThreads)
  rcases eq_or_ne i.val (context.numThreads - 1) with last | inner
  · have past : ¬ i.val + 1 < context.numThreads := by omega
    simp only [slices, Tiling.lastTakesRest, threadArgs, elemsPerThread, if_neg past, if_pos last]
    omega
  · have next : i.val + 1 < context.numThreads := by omega
    simp [slices, Tiling.lastTakesRest, threadArgs, elemsPerThread, next, inner, Nat.add_mul]

theorem part_slices (i : Fin context.numThreads) :
    (slices context numElems).part i = slice context array numElems defaultReductionValue i := by
  rw [Tiling.part, slices_cut_succ array numElems defaultReductionValue i, slices_cut,
    Nat.add_sub_cancel_left, List.range'_eq_map_range]
  rfl

/-- **The slices tile the array**: laid one after the other they are its indices. -/
theorem flatMap_slice :
    (List.finRange context.numThreads).flatMap
      (slice context array numElems defaultReductionValue) = List.range numElems := by
  rw [← (slices context numElems).flatMap_part, ← List.map_coe_finRange_eq_range,
    List.flatMap_map]
  exact List.flatMap_congr fun i _ =>
    (part_slices array numElems defaultReductionValue i).symm

/-- The local fold of a ULT is the fold of its part of the array. -/
theorem localFold_threadArgs (reduceFunc : α → α → α) (i : Fin context.numThreads) :
    localFold reduceFunc (threadArgs context array numElems defaultReductionValue i) =
      (((slices context numElems).part i).map array).foldl reduceFunc defaultReductionValue := by
  rw [part_slices array numElems defaultReductionValue, slice, List.map_map]
  rfl

end Slices

/-! ## Memory and actions -/

/-- What the ULTs of a reduction share. -/
inductive Location (numThreads : ℕ) where
  | localResult (thread : Fin numThreads)
  | threadResult (thread : Fin numThreads)
  | result
  deriving DecidableEq

/-- The contents of the locations, `none` where nothing is allocated. -/
abbrev Memory (numThreads : ℕ) (α : Type u) := Location numThreads → Option α

/-- The atomic steps of the ULTs. -/
inductive Action (numThreads : ℕ) (α : Type u) where
  | initLocal (thread : Fin numThreads) (defaultReductionValue : α)
  | reduceElement (thread : Fin numThreads) (element : α)
  | storeResult (thread : Fin numThreads)
  | combine (thread partner : Fin numThreads)
  | copyResult (thread : Fin numThreads)
  | reduceResult (thread : Fin numThreads)
  | freeLocal (thread : Fin numThreads)
  | freeResult (thread : Fin numThreads)

section Execution

variable {α : Type u} {numThreads : ℕ}

/-- The location an action writes. -/
def Action.target : Action numThreads α → Location numThreads
  | .initLocal thread _ | .reduceElement thread _ | .freeLocal thread => .localResult thread
  | .storeResult thread | .combine thread _ | .freeResult thread => .threadResult thread
  | .copyResult _ | .reduceResult _ => .result

/-- The locations an action reads. -/
def Action.reads : Action numThreads α → Set (Location numThreads)
  | .initLocal _ _ | .freeLocal _ | .freeResult _ => ∅
  | .reduceElement thread _ | .storeResult thread => {.localResult thread}
  | .combine thread partner => {.threadResult thread, .threadResult partner}
  | .copyResult thread => {.threadResult thread}
  | .reduceResult thread => {.result, .localResult thread}

/-- The value an action writes.  The first argument of `reduce_func` is the one
it overwrites. -/
def Action.value (reduceFunc : α → α → α) (memory : Memory numThreads α) :
    Action numThreads α → Option α
  | .initLocal _ defaultReductionValue => some defaultReductionValue
  | .reduceElement thread element =>
      (memory (.localResult thread)).map fun value => reduceFunc value element
  | .storeResult thread => memory (.localResult thread)
  | .combine thread partner =>
      Option.map₂ reduceFunc (memory (.threadResult thread)) (memory (.threadResult partner))
  | .copyResult thread => memory (.threadResult thread)
  | .reduceResult thread =>
      Option.map₂ reduceFunc (memory .result) (memory (.localResult thread))
  | .freeLocal _ | .freeResult _ => none

/-- One atomic step. -/
def exec (reduceFunc : α → α → α) (action : Action numThreads α) (memory : Memory numThreads α) :
    Memory numThreads α :=
  Function.update memory action.target (action.value reduceFunc memory)

/-- An action writes its target and depends on what it reads, in every memory. -/
def footprint (reduceFunc : α → α → α) :
    Footprint (exec reduceFunc : Action numThreads α → Memory numThreads α → _) fun _ => True where
  reads := Action.reads
  writes action := {action.target}
  frame := by
    intro action memory _ location outside
    exact Function.update_of_ne outside _ _
  determined := by
    intro action first second _ _ agree location inside
    obtain rfl : location = action.target := inside
    rw [exec, exec, Function.update_self, Function.update_self]
    cases action <;> simp_all [Action.value, Action.reads]

variable {reduceFunc : α → α → α}

theorem exec_target (action : Action numThreads α) (memory : Memory numThreads α) :
    exec reduceFunc action memory action.target = action.value reduceFunc memory :=
  Function.update_self _ _ _

theorem exec_of_ne {action : Action numThreads α} {location : Location numThreads}
    (different : location ≠ action.target) (memory : Memory numThreads α) :
    exec reduceFunc action memory location = memory location :=
  Function.update_of_ne different _ _

/-- Two actions are apart when neither target is a location of the other. -/
theorem apart_of_target {a b : Action numThreads α}
    (different : a.target ≠ b.target) (left : a.target ∉ b.reads) (right : b.target ∉ a.reads) :
    (footprint reduceFunc).Apart a b :=
  .of_targets rfl rfl different left right

/-- The loop over the slice, with the initialization in front of it. -/
def accumulate (args : ReductionArgs α) (thread : Fin numThreads) : List (Action numThreads α) :=
  .initLocal thread args.defaultReductionValue ::
    (List.range args.numElems).map fun i => .reduceElement thread (args.array i)

/-- The local result after the loop is the fold of the slice. -/
theorem execAll_accumulate (args : ReductionArgs α) (thread : Fin numThreads)
    (memory : Memory numThreads α) :
    execAll (exec reduceFunc) (accumulate args thread) memory (.localResult thread) =
      some (localFold reduceFunc args) := by
  have loop : ∀ (items : List ℕ) (value : α) (m : Memory numThreads α),
      m (.localResult thread) = some value →
      execAll (exec reduceFunc)
          (items.map fun i => Action.reduceElement thread (args.array i)) m
          (.localResult thread) = some ((items.map args.array).foldl reduceFunc value) := by
    intro items
    induction items with
    | nil => exact fun value m start => start
    | cons item items ih =>
        intro value m start
        refine ih (reduceFunc value (args.array item)) _ ?_
        exact (exec_target (.reduceElement thread (args.array item)) m).trans
          (by rw [Action.value, start, Option.map_some])
  exact loop _ _ _ (exec_target (.initLocal thread args.defaultReductionValue) memory)

theorem mem_accumulate {args : ReductionArgs α} {thread : Fin numThreads}
    {action : Action numThreads α} (member : action ∈ accumulate args thread) :
    action.target = .localResult thread ∧ action.reads ⊆ {.localResult thread} := by
  rcases List.mem_cons.mp member with rfl | inLoop
  · simp [Action.target, Action.reads]
  · obtain ⟨i, -, rfl⟩ := List.mem_map.mp inLoop
    simp [Action.target, Action.reads]

end Execution

end ArgobotsReduction.Reduction
