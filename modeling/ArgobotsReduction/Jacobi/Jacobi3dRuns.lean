import ArgobotsReduction.Jacobi.Jacobi3dPhases
import ArgobotsReduction.Parallel.LargestLoop

/-!
# `jac3d` under every schedule

When every ULT runs to its end where it is created, the ULTs that update `A` do what the loop of
the sequential program does, and the largest of the values they leave is its `eps`; the ULTs
that update `B` do what its second loop does (`turnResult_agrees`).  The reduction starts at
`FLT_MIN`, so the `eps` of the parallel program is not below that.

No two ULTs of a phase are in conflict, so this is what every schedule leaves, after every
iteration.  The two programs leave the iteration loop after the same turn when `MAXEPS` is
above the floor (`jac3d_agrees`).
-/

set_option autoImplicit false

namespace ArgobotsReduction.Jacobi

open Containers Parallel Parallel.ForkJoin Reduction

universe u

variable {V : Type} [LinearOrder V] {p : Jacobi3d V} {Pool : Type u}
  {context : ReductionContext Pool}

/-! ## The largest value -/

theorem maxOf_eq_max (a b : V) : maxOf a b = max a b := by
  rw [maxOf]
  split
  next above => exact (max_eq_left above.le).symm
  next notAbove => exact (max_eq_right (not_lt.mp notAbove)).symm

theorem reduceMaxFloatFunc_eq_max : (reduceMaxFloatFunc : V → V → V) = max := by
  funext a b
  exact key_larger id a b

theorem foldLaw_reduceMaxFloatFunc (start : V) : FoldLaw reduceMaxFloatFunc start := by
  have law : FoldLaw (larger id) start := foldLaw_larger Function.injective_id start
  exact law

theorem reduceMaxFloat_eq (values : ℕ → V) :
    reduceMaxFloat p context values =
      ((List.range context.numThreads).map values).foldl max p.fltMin := by
  have tree := Tree.treeValue_eq_foldl values context.numThreads context
    (foldLaw_reduceMaxFloatFunc p.fltMin)
  rw [reduceMaxFloat, tree, reduceMaxFloatFunc_eq_max]

/-- Every schedule of `reduce_max_float` leaves the value of its step, in both variants of the
reduction. -/
theorem reduceMaxFloat_gives (values : ℕ → V) :
    Gives context reduceMaxFloatFunc p.fltMin values context.numThreads
      (reduceMaxFloat p context values) := by
  have swap : ∀ a b c : V, reduceMaxFloatFunc (reduceMaxFloatFunc a b) c =
      reduceMaxFloatFunc (reduceMaxFloatFunc a c) b := larger_swap Function.injective_id
  rw [gives_iff swap (foldLaw_reduceMaxFloatFunc p.fltMin), reduceMaxFloat_eq,
    reduceMaxFloatFunc_eq_max]

/-! ## The arrays after one assignment -/

section Arrays

omit [LinearOrder V]

variable (m : Memory V) (cell : Cell) (y : V)

@[simp] theorem arrays_update_a : arrays (Function.update m (.a cell) y) =
    { arrays m with a := Function.update (arrays m).a cell y } := by
  ext i <;> simp [arrays, Function.update_apply]

@[simp] theorem arrays_update_b : arrays (Function.update m (.b cell) y) =
    { arrays m with b := Function.update (arrays m).b cell y } := by
  ext i <;> simp [arrays, Function.update_apply]

@[simp] theorem arrays_a : (arrays m).a cell = m (.a cell) := rfl

@[simp] theorem arrays_b : (arrays m).b cell = m (.b cell) := rfl

/-- An assignment to a variable leaves the arrays as they are. -/
@[simp] theorem arrays_update_of_ne {location : Location}
    (different : ∀ cell, location ≠ .a cell ∧ location ≠ .b cell) :
    arrays (Function.update m location y) = arrays m := by
  ext i <;> simp [arrays, Function.update_apply, eq_comm, different i]

end Arrays

/-! ## The ULTs -/

/-- The loops over `j` and `k`. -/
theorem execAll_planeActions {τ : Type} {view : Memory V → τ} {actions : Cell → List Action}
    {body : Cell → τ → τ}
    (each : ∀ cell m, view (execAll (exec p context) (actions cell) m) = body cell (view m))
    (i : ℕ) (m : Memory V) :
    view (execAll (exec p context) (planeActions p actions i) m) =
      Sequential.plane p body i (view m) :=
  execAll_loop (fun j m => execAll_loop (fun k m => each (i, j, k) m) m) m

/-- The element of `eps_values` of a ULT. -/
def epsValue (thread : ℕ) (m : Memory V) : V := m (.epsValue thread)

/-- The arrays, and how far a ULT has raised its value. -/
def progress (thread : ℕ) (m : Memory V) : Arrays V × V := (arrays m, m (.localEps thread))

theorem updateAThread_values (thread : ℕ) (m : Memory V) :
    (arrays (execAll (exec p context) (updateAThread p context thread) m),
        epsValue thread (execAll (exec p context) (updateAThread p context thread) m)) =
      loop (planes p context thread) (Sequential.plane p (Sequential.updateA p))
        (arrays m, p.zero) := by
  have turns : ∀ m : Memory V,
      progress thread (execAll (exec p context) ((planes p context thread).flatMap
        (planeActions p fun cell => [.setTmp thread cell, .raiseLocalEps thread, .copyA cell])) m) =
      loop (planes p context thread) (Sequential.plane p (Sequential.updateA p))
        (progress thread m) := by
    refine execAll_loop fun i m => execAll_planeActions (fun cell m => ?_) i m
    simp [progress, exec, Action.target, Action.value, Sequential.updateA]
  have cleared : progress thread (execAll (exec p context) [.clearLocalEps thread] m) =
      (arrays m, p.zero) := by
    simp [progress, exec, Action.target, Action.value]
  rw [updateAThread, execAll_append, execAll_append, ← cleared, ← turns]
  simp [progress, epsValue, exec, Action.target, Action.value]

theorem updateBThread_values (thread : ℕ) (m : Memory V) :
    arrays (execAll (exec p context) (updateBThread p context thread) m) =
      loop (planes p context thread) (Sequential.plane p (Sequential.updateB p)) (arrays m) := by
  refine execAll_loop (fun i m => execAll_planeActions (fun cell m => ?_) i m) m
  rw [execAll_cons, execAll_nil, exec]
  exact arrays_update_b m cell _

/-- Private actions of a ULT leave alone what it does not own. -/
theorem execAll_of_not_owned {shared : Set Location} {mine : List ℕ} {thread : ℕ}
    {items : List Action} (isPrivate : ∀ action ∈ items, action.Private shared mine thread)
    {location : Location} (unowned : ¬ location.OwnedBy mine thread) (m : Memory V) :
    execAll (exec p context) items m location = m location := by
  refine (footprint p context).frame_all (fun _ _ _ _ => trivial) trivial ?_
  rintro action member rfl
  exact unowned (isPrivate action member).writes

theorem raises_updateA (cell : Cell) : Raises (Sequential.updateA p cell) := by
  have step : Sequential.updateA p cell = fun s : Arrays V × V =>
      ({ s.1 with a := Function.update s.1.a cell (s.1.b cell) },
        max (p.fabs (p.sub (s.1.b cell) (s.1.a cell))) s.2) := by
    funext s
    rw [Sequential.updateA, maxOf_eq_max]
  rw [step]
  exact raises_of_max
    (fun arrays : Arrays V => { arrays with a := Function.update arrays.a cell (arrays.b cell) })
    fun arrays => p.fabs (p.sub (arrays.b cell) (arrays.a cell))

theorem raises_plane (i : ℕ) :
    Raises (V := Arrays V) (E := V) (Sequential.plane p (Sequential.updateA p) i) := by
  have inside : ∀ j, Raises (loop (inner p) fun k => Sequential.updateA p (i, j, k)) :=
    fun j => Raises.loop fun k => raises_updateA (i, j, k)
  exact Raises.loop inside

/-! ## One iteration -/

variable (p context) in
/-- **The ULTs that update `A`, one after the other**, do what the loop does, and leave its
`eps`. -/
theorem updateA_agrees (m : Memory V) :
    let now := execAll (exec p context)
      ((List.range context.numThreads).flatMap (updateAThread p context)) m
    let whole := loop (inner p) (Sequential.plane p (Sequential.updateA p)) (arrays m, p.zero)
    arrays now = whole.1 ∧
      reduceMaxFloat p context (fun thread => epsValue thread now) = max p.fltMin whole.2 := by
  have own : ∀ thread < context.numThreads, ∀ now : Memory V,
      (arrays (execAll (exec p context) (updateAThread p context thread) now),
        epsValue thread (execAll (exec p context) (updateAThread p context thread) now)) =
          loop ((slices context (p.l - 2)).part thread)
            (fun i => Sequential.plane p (Sequential.updateA p) (1 + i)) (arrays now, p.zero) := by
    intro thread within now
    rw [updateAThread_values, planes_eq_part p context within, loop_map]
  have others : ∀ thread other, other ≠ thread → ∀ now : Memory V,
      epsValue other (execAll (exec p context) (updateAThread p context thread) now) =
        epsValue other now := by
    intro thread other different now
    have unowned : ¬ (Location.epsValue other).OwnedBy (planes p context thread) thread :=
      different
    exact execAll_of_not_owned (fun action member => updateAThread_private member) unowned now
  have whole : loop (inner p) (Sequential.plane p (Sequential.updateA p)) (arrays m, p.zero) =
      loop (List.range (p.l - 2)) (fun i => Sequential.plane p (Sequential.updateA p) (1 + i))
        (arrays m, p.zero) := by
    rw [inner_eq_map, loop_map]
  obtain ⟨viewed, largest⟩ := (slices context (p.l - 2)).largest_slices
    (fun i => raises_plane (1 + i)) context.numThreads_pos p.zero own others m
  refine ⟨?_, ?_⟩
  · rw [whole]
    exact viewed
  · rw [whole, reduceMaxFloat_eq]
    exact largest p.fltMin

variable (p context) in
/-- The ULTs that update `B`, one after the other. -/
theorem updateB_agrees (m : Memory V) :
    arrays (execAll (exec p context)
        ((List.range context.numThreads).flatMap (updateBThread p context)) m) =
      loop (inner p) (Sequential.plane p (Sequential.updateB p)) (arrays m) := by
  have whole : (List.range context.numThreads).flatMap (planes p context) = inner p := by
    rw [inner_eq_map, ← (slices context (p.l - 2)).flatMap_part, List.map_flatMap]
    exact List.flatMap_congr fun thread member =>
      planes_eq_part p context (List.mem_range.mp member)
  rw [← whole, loop_flatMap]
  exact execAll_loop updateBThread_values m

variable {Lane : Type} (lane : ℕ → Lane)

theorem sequential_createThreads (threadFunc : ℕ → List Action) :
    sequential (createThreads context lane threadFunc) =
      (List.range context.numThreads).flatMap threadFunc := by
  rw [sequential, createThreads, List.flatMap_map]
  rfl

/-- **One iteration of the parallel program is one of the sequential program**, but for the
floor of the reduction. -/
theorem turnResult_agrees (m : Memory V) (eps : V) :
    let now := turnResult (exec p context) (phases p context lane) m
    let next := Sequential.iteration p (arrays m, eps)
    arrays now = next.1 ∧ now .eps = max p.fltMin next.2 := by
  obtain ⟨updated, largest⟩ := updateA_agrees p context m
  have actions : sequential ((phases p context lane).flatMap Phase.code) =
      (List.range context.numThreads).flatMap (updateAThread p context) ++ [.reduceMax] ++
        (List.range context.numThreads).flatMap (updateBThread p context) := by
    rw [← iterationCode_eq_phases, iterationCode, joinThreads]
    simp only [sequential_append, sequential_createThreads, sequential_joins, List.append_nil]
    rfl
  have unowned : ∀ now : Memory V, execAll (exec p context)
      ((List.range context.numThreads).flatMap (updateBThread p context)) now .eps = now .eps := by
    intro now
    refine (footprint p context).frame_all (fun _ _ _ _ => trivial) trivial ?_
    intro action member written
    obtain ⟨thread, -, mine⟩ := List.mem_flatMap.mp member
    have owned := (updateBThread_private mine).writes
    rwa [← Set.mem_singleton_iff.mp written] at owned
  rw [turnResult, actions, execAll_append, execAll_append]
  refine ⟨?_, ?_⟩
  · rw [updateB_agrees]
    simp only [execAll_cons, execAll_nil, exec, Action.target]
    rw [arrays_update_of_ne _ _ (by simp), updated]
    rfl
  · rw [unowned]
    simp only [execAll_cons, execAll_nil, exec, Action.target, Action.value, Function.update_self]
    exact largest

/-- The parallel program after some iterations. -/
theorem iterate_agrees (m : Memory V) (turns : ℕ) :
    let now := (turnResult (exec p context) (phases p context lane))^[turns] m
    let sequentially := (Sequential.iteration p)^[turns] (arrays m, m .eps)
    arrays now = sequentially.1 ∧ (0 < turns → now .eps = max p.fltMin sequentially.2) := by
  induction turns with
  | zero => exact ⟨rfl, fun positive => absurd positive (lt_irrefl 0)⟩
  | succ turns ih =>
      simp only [Function.iterate_succ_apply']
      obtain ⟨viewed, largest⟩ := turnResult_agrees lane
        ((turnResult (exec p context) (phases p context lane))^[turns] m)
        ((Sequential.iteration p)^[turns] (arrays m, m .eps)).2
      rw [ih.1] at viewed largest
      exact ⟨viewed, fun _ => largest⟩

/-! ## Every schedule -/

variable (p context) in
/-- **The parallel solver computes what the sequential one does**, under every schedule and from
every memory.  Every run is finite and does not get stuck.  After each iteration no ULT is
running, the arrays are those of the sequential program, and `eps` is the sequential one or the
floor of the reduction.  When `MAXEPS` is above the floor, both programs leave the loop after the
same iteration. -/
theorem jac3d_agrees (m : Memory V) :
    RepeatEnsures (exec p context) .free (iterationCode p context lane) p.itmax
      (fun m => m .eps < p.maxeps) m
      (fun turns now => arrays now = ((Sequential.iteration p)^[turns] (arrays m, m .eps)).1 ∧
        (0 < turns →
          now .eps = max p.fltMin ((Sequential.iteration p)^[turns] (arrays m, m .eps)).2))
      (fun turns _ => p.fltMin < p.maxeps → turns = (Sequential.main p (arrays m, m .eps)).1) := by
  have sound : Sound (exec p context) (fun _ _ => False) (phases p context lane) := phases_sound
  rw [iterationCode_eq_phases, ← Policy.inOrder_false]
  refine (repeatEnsures sound p.itmax m).imp ?_ ?_
  · rintro turns now rfl
    exact iterate_agrees lane m turns
  · intro turns now reached above
    refine (congrArg Prod.fst reached).trans
      (repeatUntil_turns_congr (fun k positive => ?_) p.itmax)
    rw [(iterate_agrees lane m k).2 positive, max_lt_iff]
    exact and_iff_right above

/-! ## A grid with one inner cell -/

/-- The constants of the program on the smallest grid. -/
def smallestGrid : Jacobi3d ℚ where
  l := 3
  itmax := 100
  maxeps := 1 / 2
  zero := 0
  six := 6
  fltMin := 1 / 2 ^ 126
  add := (· + ·)
  sub := (· - ·)
  div := (· / ·)
  fabs := abs

/-- Four ULTs in two pools. -/
def fourInTwo : ReductionContext ℕ := ⟨2, Fin.val, 4, Nat.two_pos, by decide⟩

/-- The memory that `main` sets up. -/
def initialized : Memory ℚ
  | .b (i, j, k) =>
      if i = 0 ∨ j = 0 ∨ k = 0 ∨ i = 2 ∨ j = 2 ∨ k = 2 then 0 else 4 + i + j + k
  | _ => 0

/-- More ULTs than planes, each in a lane of its own: some run leaves the loop, and each that
does has taken three turns. -/
theorem jac3d_agrees_smallestGrid :
    (∃ s, Reaches smallestGrid fourInTwo id initialized s ∧ s.left = true) ∧
      ∀ s, Reaches smallestGrid fourInTwo id initialized s → s.left = true → s.turns = 3 := by
  have agrees := jac3d_agrees smallestGrid fourInTwo id initialized
  have turns : (Sequential.main smallestGrid (arrays initialized, initialized .eps)).1 = 3 := by
    decide +kernel
  have above : smallestGrid.fltMin < smallestGrid.maxeps := by
    decide +kernel
  refine ⟨agrees.exists_left, fun s run left => ?_⟩
  rw [← turns]
  exact agrees.result s run left above

end ArgobotsReduction.Jacobi
