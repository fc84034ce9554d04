import ArgobotsReduction.ConjugateGradient.Solver
import ArgobotsReduction.Parallel.Lifetimes

/-!
# The ULTs that `conj_grad` never frees

`conj_grad` and the reductions it calls keep the handles of their ULTs in
`reduction_context.threads`, one for each thread number.  A phase creates a ULT for each
number, and joins and frees them all.  The first phase only creates its ULTs, and the second
one creates its own into the same handles.

So every call of `conj_grad` loses the ULTs of its first phase, and frees all others exactly
once (`run_conjGrad`), whenever the ULTs end.
-/

set_option autoImplicit false

namespace ArgobotsReduction.ConjugateGradient.Leaks

open Containers Parallel.Lifetimes
open Parallel (Machine)

universe v

/-! ## The code -/

variable (numThreads : ℕ)

/-- A loop over `create_thread_with_estimate`. -/
def createThreads : List (Instr ℕ) := (List.range numThreads).map .create

/-- A loop over `ABT_thread_join` and `ABT_thread_free`. -/
def joinThreads : List (Instr ℕ) := (List.range numThreads).flatMap fun i => [.join i, .free i]

/-- `reduce_common`, which `reduce_sum_double` calls. -/
def reduceCommon : List (Instr ℕ) := createThreads numThreads ++ joinThreads numThreads

/-- One turn of the iteration loop. -/
def cgTurn : List (Instr ℕ) :=
  -- `q = A.p`
  createThreads numThreads ++ joinThreads numThreads ++
    -- `d = p.q`
    createThreads numThreads ++ joinThreads numThreads ++ reduceCommon numThreads ++
    -- `z`, `r` and `rho`
    createThreads numThreads ++ joinThreads numThreads ++ reduceCommon numThreads ++
    -- `p = r + beta*p`
    createThreads numThreads ++ joinThreads numThreads

/-- `conj_grad` with `cgitmax` iterations. -/
def conjGrad (cgitmax : ℕ) : List (Instr ℕ) :=
  -- the ULTs of `conj_grad_init_thread` are not joined here
  createThreads numThreads ++
    createThreads numThreads ++ joinThreads numThreads ++ reduceCommon numThreads ++
    ((span 1 (cgitmax + 1)).flatMap fun _ => cgTurn numThreads) ++
    createThreads numThreads ++ joinThreads numThreads ++ reduceCommon numThreads

/-! ## The code of the solver -/

section Refinement

open Solver

variable {Pool : Type v}

/-- What an instruction of the solver does with ULTs. -/
def view : Parallel.ForkJoin.Instr Pool ℕ Action → List (Instr ℕ)
  | .fork _ slot _ => [.create slot]
  | .join slot => [.join slot, .free slot]
  | .act .reduceRho | .act .reduceD | .act .reduceSum => reduceCommon numThreads
  | .act _ => []

variable {K : Type} (s : System K) (context : Reduction.ReductionContext Pool)

theorem flatMap_view_createThreads {arguments : ℕ → List Action} (threadFunc : ℕ → List Action)
    (quiet : ∀ i, ((arguments i).map .act).flatMap (@view numThreads Pool) = []) :
    (Solver.createThreads context arguments threadFunc).flatMap (view numThreads) =
      createThreads context.numThreads := by
  rw [Solver.createThreads, List.flatMap_assoc, createThreads, List.map_eq_flatMap]
  refine List.flatMap_congr fun i _ => ?_
  rw [List.flatMap_append, quiet i]
  rfl

theorem flatMap_view_joinThreads :
    (Solver.joinThreads context).flatMap (view numThreads) = joinThreads context.numThreads := by
  rw [Solver.joinThreads, List.flatMap_map]
  rfl

theorem flatMap_view_cgTurn :
    (Solver.cgTurn s context).flatMap (view context.numThreads) = cgTurn context.numThreads := by
  simp [Solver.cgTurn, cgTurn, flatMap_view_createThreads, flatMap_view_joinThreads, view]

/-- **These are the ULTs of the solver.** -/
theorem flatMap_view_conjGrad :
    (Solver.conjGrad s context).flatMap (view context.numThreads) =
      conjGrad context.numThreads cgitmax := by
  simp [Solver.conjGrad, initCode, loopCode, conjGrad, List.flatMap_assoc,
    flatMap_view_createThreads, flatMap_view_joinThreads, flatMap_view_cgTurn, view]

end Refinement

/-! ## The ledger -/

/-- The loop that creates the ULTs overwrites all handles. -/
theorem run_createThreads (l : Ledger ℕ) :
    l.run (createThreads numThreads) = some { l with
      count := l.count + numThreads
      handle := fun i => if i < numThreads then some (l.count + i) else l.handle i
      lost := l.lost ++ (List.range numThreads).flatMap fun i => (l.owed i).toList } := by
  induction numThreads with
  | zero => simp [createThreads, Ledger.run]
  | succ n ih =>
      rw [createThreads, List.range_succ, List.map_append, ← createThreads, Ledger.run_append, ih,
        Option.bind_some, List.map_singleton, Ledger.run, Ledger.exec, Option.bind_some, Ledger.run]
      congr 1
      ext i : 2
      · exact Nat.add_assoc l.count n 1
      · simp only [Function.update_apply]
        grind
      · rfl
      · rfl
      · simp [Ledger.owed]

/-- One more for each of `number` ULTs, from `first` on. -/
def raised (counts : ℕ → ℕ) (first number k : ℕ) : ℕ :=
  if first ≤ k ∧ k < first + number then counts k + 1 else counts k

theorem raised_zero (counts : ℕ → ℕ) (first : ℕ) : raised counts first 0 = counts := by
  funext k
  exact if_neg (by omega)

theorem raised_succ (counts : ℕ → ℕ) (first number : ℕ) :
    Function.update (raised counts first number) (first + number)
      (raised counts first number (first + number) + 1) = raised counts first (number + 1) := by
  funext k
  simp only [Function.update_apply, raised]
  grind

/-- The loop that joins and frees the ULTs, whose numbers begin with `first`. -/
theorem run_joinThreads {l : Ledger ℕ} (first : ℕ)
    (named : ∀ i < numThreads, l.handle i = some (first + i)) :
    l.run (joinThreads numThreads) = some { l with
      handle := fun i => if i < numThreads then none else l.handle i
      joins := raised l.joins first numThreads
      frees := raised l.frees first numThreads } := by
  induction numThreads with
  | zero => simp [joinThreads, Ledger.run, raised_zero]
  | succ n ih =>
      rw [joinThreads, List.range_succ, List.flatMap_append, ← joinThreads, Ledger.run_append,
        ih fun i below => named i (Nat.lt_succ_of_lt below), Option.bind_some]
      simp only [List.flatMap_singleton, Ledger.run, Ledger.exec, lt_irrefl, if_false,
        named n (Nat.lt_succ_self n), Option.map_some, Option.bind_some, raised_succ]
      congr 2
      funext i
      simp only [Function.update_apply]
      grind

/-- A whole phase loses the ULTs whose handles it overwrites, and frees its own. -/
theorem run_phase (l : Ledger ℕ) :
    l.run (createThreads numThreads ++ joinThreads numThreads) = some {
      count := l.count + numThreads
      handle := fun i => if i < numThreads then none else l.handle i
      joins := raised l.joins l.count numThreads
      frees := raised l.frees l.count numThreads
      lost := l.lost ++ (List.range numThreads).flatMap fun i => (l.owed i).toList } := by
  rw [Ledger.run_append, run_createThreads, Option.bind_some,
    run_joinThreads numThreads l.count fun i below => if_pos below]
  congr 2
  funext i
  grind

/-- The ledger when the ULTs of the first phase are lost, and all others are freed. -/
def ledgerAfter (count : ℕ) : Ledger ℕ where
  count := count
  handle _ := none
  joins k := if numThreads ≤ k ∧ k < count then 1 else 0
  frees k := if numThreads ≤ k ∧ k < count then 1 else 0
  lost := List.range numThreads

theorem raised_ledgerAfter {count : ℕ} (created : numThreads ≤ count) (number : ℕ) :
    raised (fun k => if numThreads ≤ k ∧ k < count then 1 else 0) count number =
      fun k => if numThreads ≤ k ∧ k < count + number then 1 else 0 := by
  funext k
  simp only [raised]
  grind

/-- The second phase loses the ULTs of the first one. -/
theorem run_start :
    Ledger.start.run (createThreads numThreads ++ (createThreads numThreads ++
      joinThreads numThreads)) = some (ledgerAfter numThreads (numThreads + numThreads)) := by
  rw [Ledger.run_append, run_createThreads, Option.bind_some, run_phase]
  congr 1
  refine Ledger.ext ?_ ?_ ?_ ?_ ?_
  · simp [Ledger.start, ledgerAfter]
  · funext i
    simp [Ledger.start, ledgerAfter]
  · funext k
    simp [Ledger.start, ledgerAfter, raised]
  · funext k
    simp [Ledger.start, ledgerAfter, raised]
  · have owed : ∀ i ∈ List.range numThreads,
        (Option.filter (fun _ => true) (if i < numThreads then some i else none)).toList = [i] := by
      intro i member
      rw [if_pos (List.mem_range.mp member)]
      rfl
    simp [Ledger.start, ledgerAfter, Ledger.owed, List.flatMap_congr owed]

/-- Every other phase frees its ULTs. -/
theorem run_reduceCommon {count : ℕ} (created : numThreads ≤ count) :
    (ledgerAfter numThreads count).run (reduceCommon numThreads) =
      some (ledgerAfter numThreads (count + numThreads)) := by
  rw [reduceCommon, run_phase]
  simp [ledgerAfter, raised_ledgerAfter numThreads created, Ledger.owed]

/-- Phases that leave no ULT behind. -/
def phases (number : ℕ) : List (Instr ℕ) :=
  (List.replicate number (reduceCommon numThreads)).flatten

theorem run_phases {count : ℕ} (created : numThreads ≤ count) (number : ℕ) :
    (ledgerAfter numThreads count).run (phases numThreads number) =
      some (ledgerAfter numThreads (count + number * numThreads)) := by
  induction number generalizing count with
  | zero =>
      rw [Nat.zero_mul]
      rfl
  | succ number ih =>
      rw [phases, List.replicate_succ, List.flatten_cons, ← phases, Ledger.run_append,
        run_reduceCommon numThreads created, Option.bind_some, ih (Nat.le_add_right_of_le created),
        Nat.succ_mul, Nat.add_assoc, Nat.add_comm numThreads]

theorem phases_add (first second : ℕ) :
    phases numThreads (first + second) = phases numThreads first ++ phases numThreads second := by
  rw [phases, phases, phases, ← List.flatten_append, List.replicate_append_replicate]

theorem cgTurn_eq_phases : cgTurn numThreads = phases numThreads 6 := by
  simp [cgTurn, phases, reduceCommon, List.replicate_succ]

theorem flatMap_cgTurn_eq_phases (turns : List ℕ) :
    (turns.flatMap fun _ => cgTurn numThreads) = phases numThreads (6 * turns.length) := by
  induction turns with
  | nil => rfl
  | cons turn turns ih =>
      rw [List.flatMap_cons, ih, cgTurn_eq_phases, ← phases_add, List.length_cons, Nat.mul_succ,
        Nat.add_comm]

theorem conjGrad_eq_phases (cgitmax : ℕ) : conjGrad numThreads cgitmax =
    (createThreads numThreads ++ (createThreads numThreads ++ joinThreads numThreads)) ++
      phases numThreads (1 + 6 * cgitmax + 2) := by
  have one : phases numThreads 1 = reduceCommon numThreads := List.append_nil _
  have two : phases numThreads 2 =
      createThreads numThreads ++ joinThreads numThreads ++ reduceCommon numThreads := by
    rw [phases_add numThreads 1 1, one]
    rfl
  have turns : (span 1 (cgitmax + 1)).length = cgitmax := List.length_range'
  rw [phases_add, phases_add, one, two, conjGrad, flatMap_cgTurn_eq_phases, turns]
  simp only [List.append_assoc]

/-- **The ledger of `conj_grad`.** -/
theorem run_conjGrad (cgitmax : ℕ) :
    Ledger.start.run (conjGrad numThreads cgitmax) =
      some (ledgerAfter numThreads ((6 * cgitmax + 5) * numThreads)) := by
  rw [conjGrad_eq_phases, Ledger.run_append, run_start, Option.bind_some,
    run_phases numThreads (Nat.le_add_right _ _), ← Nat.two_mul, ← Nat.add_mul]
  congr 3
  omega

/-! ## Leaks -/

/-- Every ULT is joined and freed exactly once, and no handle of a ULT was overwritten before. -/
def Settled (l : Ledger ℕ) : Prop :=
  (∀ k < l.count, l.joins k = 1 ∧ l.frees k = 1) ∧ l.lost = []

variable {numThreads}

theorem not_settled_ledgerAfter (threads : 0 < numThreads) (count : ℕ) :
    ¬Settled (ledgerAfter numThreads count) := by
  rintro ⟨-, none⟩
  exact threads.ne' (List.range_eq_nil.mp none)

/-- **Every call of `conj_grad` loses the ULTs of its first phase.**  The call can always get to
its end, and at its end it has joined and freed each of the other ULTs once. -/
theorem conjGrad_leaks (threads : 0 < numThreads) (cgitmax : ℕ) :
    let call := lifetimes (conjGrad numThreads cgitmax)
    (∀ s, call.Reachable Machine.anyEvent s →
      ∃ events t, call.play Machine.anyEvent s events = some t ∧ t.code = []) ∧
    ∀ s, call.Reachable Machine.anyEvent s → s.code = [] →
      s.ledger.count = (6 * cgitmax + 5) * numThreads ∧
      (∀ k < numThreads, s.ledger.joins k = 0 ∧ s.ledger.frees k = 0) ∧
      (∀ k, numThreads ≤ k → k < s.ledger.count → s.ledger.joins k = 1 ∧ s.ledger.frees k = 1) ∧
      s.ledger.lost = List.range numThreads ∧ ¬Settled s.ledger := by
  refine ⟨fun s reachable => ?_, fun s reachable finished => ?_⟩
  · obtain ⟨events, t, played, finished, -⟩ :=
      exists_finished (run_conjGrad numThreads cgitmax) reachable
    exact ⟨events, t, played, finished⟩
  · rw [ledger_of_finished (run_conjGrad numThreads cgitmax) reachable finished]
    refine ⟨rfl, fun k below => ?_, fun k above below => ?_, rfl,
      not_settled_ledgerAfter threads _⟩
    · exact ⟨if_neg fun within => within.1.not_gt below, if_neg fun within => within.1.not_gt below⟩
    · exact ⟨if_pos ⟨above, below⟩, if_pos ⟨above, below⟩⟩

/-- Four threads and the iterations of the benchmark: 620 ULTs, and four of them are lost. -/
theorem conjGrad_leaks_four : ∃ s, (lifetimes (conjGrad 4 25)).Reachable Machine.anyEvent s ∧
    s.ledger.count = 620 ∧ s.ledger.lost = [0, 1, 2, 3] ∧ ¬Settled s.ledger := by
  obtain ⟨returns, leaks⟩ := conjGrad_leaks (show 0 < 4 by decide) 25
  have start : (lifetimes (conjGrad 4 25)).Reachable Machine.anyEvent _ := .start rfl
  obtain ⟨events, s, played, finished⟩ := returns _ start
  obtain ⟨count, -, -, lost, unsettled⟩ := leaks s (start.of_play played) finished
  exact ⟨s, start.of_play played, count, lost, unsettled⟩

/-- Not every call settles. -/
theorem not_conjGrad_settled : ¬∀ numThreads, 0 < numThreads → ∀ cgitmax s,
    (lifetimes (conjGrad numThreads cgitmax)).Reachable Machine.anyEvent s → s.code = [] →
    Settled s.ledger := by
  intro settles
  have start : (lifetimes (conjGrad 4 25)).Reachable Machine.anyEvent _ := .start rfl
  obtain ⟨events, s, played, finished, left⟩ := exists_finished (run_conjGrad 4 25) start
  have settled := settles 4 (by decide) 25 s (start.of_play played) finished
  rw [left] at settled
  exact not_settled_ledgerAfter (by decide) _ settled

end ArgobotsReduction.ConjugateGradient.Leaks
