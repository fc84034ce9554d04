import ArgobotsReduction.Reduction.Tree

/-!
# The mutex reduction

The variant of `reduce_common` without `USE_TREE_REDUCTION`.  `*result` starts
with the default value, and every ULT folds its local result into it inside a
critical section.

When the reduce function lets two right arguments change places, the critical
sections commute, and the order in which the ULTs acquire the mutex does not
matter (`reduceCommon_ensures_mutexValue`).  With an associative and commutative
function the two variants agree (`variants_agree`).
-/

set_option autoImplicit false

namespace ArgobotsReduction.Reduction.Mutex

open Parallel

universe u v

variable {α : Type u} {numThreads : ℕ}

/-! ## The code -/

def reductionThread (args : ReductionArgs α) (thread : Fin numThreads) :
    Code (Action numThreads α) :=
  (accumulate args thread).map .act ++
    [.lock, .act (.reduceResult thread), .unlock, .act (.freeLocal thread)]

/-- The ULTs that `reduce_common` creates and joins. -/
def reduceCommon {Pool : Type v} (context : ReductionContext Pool) (array : ℕ → α)
    (numElems : ℕ) (defaultReductionValue : α) (i : Fin context.numThreads) :
    Ult Pool (Action context.numThreads α) where
  pool := context.poolOf i
  body := reductionThread (threadArgs context array numElems defaultReductionValue i) i

/-- The memory in which the ULTs are created: the result holds the default. -/
def initResult (defaultReductionValue : α) (memory : Memory numThreads α) : Memory numThreads α :=
  Function.update memory .result (some defaultReductionValue)

/-! ## One round of commuting actions -/

section Run

variable (args : ReductionArgs α) (thread : Fin numThreads)

theorem waits_reductionThread : (reductionThread args thread).waits = 0 := by
  simp [reductionThread]

theorem disciplined_reductionThread : Code.Disciplined false (reductionThread args thread) :=
  Code.disciplined_map_append _ (by simp [Code.Disciplined])

theorem reductionThread_actions : (reductionThread args thread).actions 0 =
    accumulate args thread ++ [.reduceResult thread, .freeLocal thread] := by
  simp [reductionThread]

/-- A ULT stays within its local result, apart from its critical section. -/
theorem mem_reductionThread {args : ReductionArgs α} {thread : Fin numThreads}
    {action : Action numThreads α} (member : action ∈ (reductionThread args thread).actions 0) :
    action = .reduceResult thread ∨
      action.target = .localResult thread ∧ action.reads ⊆ {.localResult thread} := by
  rw [reductionThread_actions] at member
  rcases List.mem_append.mp member with inLoop | after
  · exact .inr (mem_accumulate inLoop)
  · rcases List.mem_pair.mp after with rfl | rfl
    · exact .inl rfl
    · exact .inr ⟨rfl, by simp [Action.reads]⟩

end Run

/-- The critical sections of two ULTs may change places. -/
theorem reduceResult_comm {reduceFunc : α → α → α}
    (swap : ∀ a b c, reduceFunc (reduceFunc a b) c = reduceFunc (reduceFunc a c) b)
    (t u : Fin numThreads) (memory : Memory numThreads α) :
    exec reduceFunc (.reduceResult t) (exec reduceFunc (.reduceResult u) memory) =
      exec reduceFunc (.reduceResult u) (exec reduceFunc (.reduceResult t) memory) := by
  have value : ∀ t u : Fin numThreads,
      exec reduceFunc (.reduceResult t) (exec reduceFunc (.reduceResult u) memory) .result =
        Option.map₂ reduceFunc
          (Option.map₂ reduceFunc (memory .result) (memory (.localResult u)))
          (memory (.localResult t)) := by
    intro t u
    have kept : exec reduceFunc (.reduceResult u) memory (.localResult t) =
        memory (.localResult t) := exec_of_ne (by simp [Action.target]) memory
    refine (exec_target (.reduceResult t) _).trans ?_
    rw [Action.value, kept]
    exact congrArg (Option.map₂ reduceFunc · _) (exec_target (.reduceResult u) memory)
  funext location
  rcases eq_or_ne location .result with rfl | other
  · rw [value, value]
    cases memory .result <;> cases memory (.localResult t) <;> cases memory (.localResult u) <;>
      simp [swap]
  · rw [exec_of_ne other, exec_of_ne other, exec_of_ne other, exec_of_ne other]

section Reduction

variable (args : Fin numThreads → ReductionArgs α) {reduceFunc : α → α → α}

/-- All actions of two ULTs commute. -/
theorem commute (swap : ∀ a b c, reduceFunc (reduceFunc a b) c = reduceFunc (reduceFunc a c) b)
    {t u : Fin numThreads} (different : t ≠ u) {a b : Action numThreads α}
    (mine : a ∈ (reductionThread (args t) t).actions 0)
    (theirs : b ∈ (reductionThread (args u) u).actions 0) (memory : Memory numThreads α) :
    exec reduceFunc a (exec reduceFunc b memory) = exec reduceFunc b (exec reduceFunc a memory) := by
  have local_result : ∀ {t u : Fin numThreads} {a : Action numThreads α}, t ≠ u →
      a.target = .localResult t → a.reads ⊆ {.localResult t} →
      (footprint reduceFunc).Apart a (.reduceResult u) := by
    intro t u a different target reads
    refine apart_of_target ?_ ?_ fun read => ?_
    · rw [target]
      exact nofun
    · simpa [target, Action.reads] using different
    · cases reads read
  rcases mem_reductionThread mine with rfl | ⟨targetT, readsT⟩ <;>
    rcases mem_reductionThread theirs with rfl | ⟨targetU, readsU⟩
  · exact reduceResult_comm swap t u memory
  · exact (footprint reduceFunc).commute_always
      (local_result different.symm targetU readsU).symm memory
  · exact (footprint reduceFunc).commute_always (local_result different targetT readsT) memory
  · refine (footprint reduceFunc).commute_always (apart_of_target ?_ ?_ ?_) memory
    · simpa [targetT, targetU] using different
    · intro read
      simpa [targetT, different] using readsU read
    · intro read
      simpa [targetU, different.symm] using readsT read

theorem exchange (swap : ∀ a b c, reduceFunc (reduceFunc a b) c = reduceFunc (reduceFunc a c) b)
    (may : Policy (Fin numThreads) (Action numThreads α) (Memory numThreads α))
    (memory : Memory numThreads α) :
    Exchange (exec reduceFunc) may (List.finRange numThreads)
      (fun t => reductionThread (args t) t) memory fun _ _ => True := by
  refine .of_commute List.mem_finRange (List.nodup_finRange numThreads) (fun _ => trivial)
    (fun _ _ _ _ _ _ => trivial) ?_
  intro t u round different a mine b theirs m _
  cases round with
  | zero => exact commute args swap different mine theirs m
  | succ round =>
      rw [Code.actions_eq_nil (by rw [waits_reductionThread]; exact Nat.succ_pos round)] at mine
      simp at mine

/-- One ULT after the other folds its local result into the result. -/
theorem result_execAll (threads : List (Fin numThreads)) (memory : Memory numThreads α) (start : α)
    (holds : memory .result = some start) :
    execAll (exec reduceFunc)
        (threads.flatMap fun t => (reductionThread (args t) t).actions 0) memory .result =
      some ((threads.map fun t => localFold reduceFunc (args t)).foldl reduceFunc start) := by
  induction threads generalizing memory start with
  | nil => exact holds
  | cons t threads ih =>
      rw [List.flatMap_cons, execAll_append, List.map_cons, List.foldl_cons]
      refine ih _ _ ?_
      rw [reductionThread_actions, execAll_append, execAll_cons, execAll_cons, execAll_nil,
        exec_of_ne (by simp [Action.target])]
      refine (exec_target (.reduceResult t) _).trans ?_
      have outside : ∀ action ∈ accumulate (args t) t,
          .result ∉ (footprint reduceFunc).writes action := fun action inLoop => by
        simp [footprint, (mem_accumulate inLoop).1]
      have kept : execAll (exec reduceFunc) (accumulate (args t) t) memory .result =
          memory .result :=
        (footprint reduceFunc).frame_all (fun _ _ _ _ => trivial) trivial outside
      rw [Action.value, execAll_accumulate, kept, holds]
      rfl

end Reduction

/-! ## The whole reduction -/

section Correctness

variable {Pool : Type v} (context : ReductionContext Pool) (reduceFunc : α → α → α)
  (array : ℕ → α) (numElems : ℕ) (defaultReductionValue : α)

/-- The local folds of the ULTs, folded in the order of the ULTs. -/
def mutexValue : α :=
  ((List.range context.numThreads).map fun i =>
    (((slices context numElems).part i).map array).foldl reduceFunc
      defaultReductionValue).foldl reduceFunc defaultReductionValue

variable {context} {reduceFunc}

/-- Every schedule of the mutex reduction, in every order of acquisition, ends
with the same value in the result. -/
theorem reduceCommon_ensures_mutexValue
    (swap : ∀ a b c, reduceFunc (reduceFunc a b) c = reduceFunc (reduceFunc a c) b)
    (memory : Memory context.numThreads α)
    {may : Policy (Fin context.numThreads) (Action context.numThreads α)
      (Memory context.numThreads α)}
    (live : Policy.Live (exec reduceFunc) may (initResult defaultReductionValue memory)
      fun i => (reduceCommon context array numElems defaultReductionValue i).body) :
    Ensures (exec reduceFunc) may (initResult defaultReductionValue memory)
      (fun i => (reduceCommon context array numElems defaultReductionValue i).body)
      fun final => final .result =
        some (mutexValue context reduceFunc array numElems defaultReductionValue) := by
  refine ((exchange (threadArgs context array numElems defaultReductionValue) swap may
    _).ensures (fun t => disciplined_reductionThread _ t)
    (fun t => congrArg (· + 1) (waits_reductionThread _ t)) live).imp ?_
  rintro _ rfl
  rw [canonical_succ, canonical_zero]
  refine (result_execAll (threadArgs context array numElems defaultReductionValue) _ _
    defaultReductionValue (Function.update_self _ _ _)).trans ?_
  rw [mutexValue, ← List.map_coe_finRange_eq_range, List.map_map,
    List.map_congr_left fun t _ => localFold_threadArgs array numElems
      defaultReductionValue reduceFunc t]
  rfl

theorem mutexValue_eq_foldl (context : ReductionContext Pool)
    (law : FoldLaw reduceFunc defaultReductionValue) :
    mutexValue context reduceFunc array numElems defaultReductionValue =
      ((List.range numElems).map array).foldl reduceFunc defaultReductionValue := by
  have parts := law.foldl_foldl
    ((List.range context.numThreads).map fun i => ((slices context numElems).part i).map array)
  rw [List.map_map] at parts
  rw [mutexValue, ← (slices context numElems).flatMap_part, List.map_flatMap]
  exact parts

/-- **The two variants agree.**  With an associative and commutative function
whose default is its identity, every schedule of the mutex variant and every
schedule of the tree variant, for any contexts, leave the fold of the array in
the result. -/
theorem variants_agree (mutexContext treeContext : ReductionContext Pool) (reduceFunc : α → α → α)
    (defaultReductionValue : α)
    (assoc : ∀ a b c, reduceFunc (reduceFunc a b) c = reduceFunc a (reduceFunc b c))
    (comm : ∀ a b, reduceFunc a b = reduceFunc b a)
    (identity : ∀ a, reduceFunc a defaultReductionValue = a) (array : ℕ → α) (numElems : ℕ)
    (mutexMemory : Memory mutexContext.numThreads α)
    (treeMemory : Memory treeContext.numThreads α) :
    Ensures (exec reduceFunc) .free (initResult defaultReductionValue mutexMemory)
        (fun i => (reduceCommon mutexContext array numElems defaultReductionValue i).body)
        (fun final => final .result =
          some (((List.range numElems).map array).foldl reduceFunc defaultReductionValue)) ∧
      Ensures (exec reduceFunc) .free treeMemory
        (fun i => (Tree.reduceCommon treeContext array numElems defaultReductionValue i).body)
        (fun final => final .result =
          some (((List.range numElems).map array).foldl reduceFunc defaultReductionValue)) := by
  have law : FoldLaw reduceFunc defaultReductionValue := .of_unit assoc identity
  have swap : ∀ a b c, reduceFunc (reduceFunc a b) c = reduceFunc (reduceFunc a c) b :=
    fun a b c => by rw [assoc, comm b c, ← assoc]
  constructor
  · rw [← mutexValue_eq_foldl array numElems defaultReductionValue mutexContext law]
    exact reduceCommon_ensures_mutexValue array numElems defaultReductionValue swap mutexMemory
      (Policy.live_free _ _ _)
  · rw [← Tree.treeValue_eq_foldl array numElems treeContext law]
    exact Tree.reduceCommon_ensures_treeValue reduceFunc array numElems defaultReductionValue
      treeMemory (Policy.live_free _ _ _)

/-- A sum of five numbers by two ULTs with the mutex and by three in the tree. -/
theorem variants_agree_sum :
    Ensures (exec (· + ·)) .free (initResult 0 fun _ => none)
        (fun i => (reduceCommon ⟨2, id, 2, by decide, by decide⟩ id 5 0 i).body)
        (fun final => final .result = some 10) ∧
      Ensures (exec (· + ·)) .free (fun _ => none)
        (fun i => (Tree.reduceCommon ⟨1, fun _ => 0, 3, by decide, by decide⟩ id 5 0 i).body)
        (fun final => final .result = some 10) :=
  variants_agree ⟨2, id, 2, by decide, by decide⟩ ⟨1, fun _ => 0, 3, by decide, by decide⟩
    (· + ·) 0 Nat.add_assoc Nat.add_comm Nat.add_zero id 5 (fun _ => none) fun _ => none

end Correctness

end ArgobotsReduction.Reduction.Mutex
