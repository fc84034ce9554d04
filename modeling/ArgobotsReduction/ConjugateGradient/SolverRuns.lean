import Mathlib.Data.Rat.Defs
import Mathlib.Tactic.FieldSimp
import Mathlib.Tactic.Positivity
import Mathlib.Tactic.Ring
import ArgobotsReduction.ConjugateGradient.SolverValues

/-!
# `conj_grad` under every schedule

The ULTs that initialize the vectors are not joined before the ULTs that sum up the
first `rho` start, and the slices of the two loops have different borders.  When no
ULT reads an element of `r` that an earlier one has still to store, every run
computes the first `rho` and the `z` of the sequential program (`conjGrad_agrees`).
Without that, a run may take an old element of `r` into `rho`
(`not_conjGrad_agrees`).
-/

set_option autoImplicit false

namespace ArgobotsReduction.ConjugateGradient.Solver

open Containers Parallel Parallel.ForkJoin Reduction

universe u

section Agreement

variable {K : Type} [Field K] (s : System K) {Pool : Type u} (context : ReductionContext Pool)

/-- The initialization of the sequential program stores `x` in `r`. -/
theorem initLoop_r (v : Vectors K) {j : ℕ} (within : j < s.naa + 1) :
    (loop (span 0 (s.naa + 1)) (Sequential.initTurn s) v).r j = s.x j := by
  have turned : (loop (span 0 (s.naa + 1)) (Sequential.initTurn s) v).r =
      loop (span 0 (s.naa + 1)) (fun j r => Function.update r j (s.x j)) v.r :=
    loop_hom Vectors.r _ (fun _ _ _ => rfl) v
  rw [turned]
  refine loop_store id (fun i _ same => congrArg s.x same) (.inl ⟨j, ?_, rfl⟩)
  exact mem_span.mpr ⟨Nat.zero_le j, within⟩

/-- The first `rho` of the sequential program. -/
theorem init_rho (v : Vectors K) :
    (Sequential.init s v).2 = ∑ j ∈ Finset.range s.ncols, s.x j * s.x j := by
  rw [Sequential.init]
  simp only [span, Nat.sub_zero, ← List.range_eq_range', loop_add, zero_add]
  refine Finset.sum_congr rfl fun j member => ?_
  rw [Finset.mem_range, s.ncols_eq] at member
  have stored := initLoop_r s v (Nat.lt_succ_of_lt member)
  rw [span, Nat.sub_zero, ← List.range_eq_range'] at stored
  rw [stored]

omit [Field K] in
/-- The ULTs that are created before the first `rho` do not write it. -/
theorem target_ne_rho {f : Fork Pool ℕ Action} (created : f ∈ forks (initCode s context))
    {action : Action} (member : action ∈ f.body) : action.target ≠ .rho := by
  have owned : ∃ mine thread, action.target.OwnedBy mine thread := by
    simp only [initCode, joinThreads, forks_append, forks_createThreads, List.mem_append,
      List.mem_map, List.mem_range] at created
    obtain ((⟨thread, -, rfl⟩ | ⟨thread, -, rfl⟩) | joins) | acts := created
    · exact ⟨_, thread, (conjGradInitThread_private member).writes⟩
    · exact ⟨_, thread, (conjGradRhoThread_private member).writes⟩
    · simp [forks, Instr.fork?] at joins
    · simp [forks, Instr.fork?] at acts
  obtain ⟨mine, thread, isOwned⟩ := owned
  intro same
  exact isOwned.not_ofMain (same ▸ trivial)

/-- Every run that keeps the order ends in the memory that the ULTs leave in turn. -/
theorem ensures_conjGrad (m : Memory K) :
    Ensures (exec s context) (Policy.inOrder (StoresRead s)) m (conjGrad s context)
      (· = execAll (exec s context) (sequential (conjGrad s context)) m) := by
  have sound : Sound (exec s context) (StoresRead s) (phases s context) := phases_sound
  rw [conjGrad_eq_phases]
  exact ensures_sequential sound m

/-- **`conj_grad` agrees with the sequential program** in every run in which no ULT
reads an element of `r` while an earlier one has still to store it: the run ends, with
the sequential `z`, and the first `rho` is the sum of the squares of `x`. -/
theorem conjGrad_agrees (m : Memory K) :
    Ensures (exec s context) (Policy.inOrder (StoresRead s)) m (conjGrad s context)
        (fun final => ∀ j, final (.z j) = (Sequential.conjGrad s (vectors m)).1.z j) ∧
      ∀ c, Steps (exec s context) (Policy.inOrder (StoresRead s))
          (Config.start m (conjGrad s context)) c →
        c.main = loopCode s context →
          c.memory .rho = ∑ j ∈ Finset.range s.ncols, s.x j * s.x j := by
  constructor
  · refine (ensures_conjGrad s context m).imp fun final reached j => ?_
    rw [reached, execAll_conjGrad]
  · intro c run main
    rw [conjGrad_eq_phases] at run
    obtain ⟨executed, all, agrees, pending⟩ := run.agrees phases_sound
    rw [← conjGrad_eq_phases, main, conjGrad] at all
    obtain rfl := List.append_cancel_right all
    have kept : execAll (exec s context) c.pending c.memory .rho = c.memory .rho := by
      refine (footprint s context).frame_all (fun _ _ _ _ => trivial) trivial ?_
      intro action todo written
      obtain ⟨f, created, body⟩ := pending action todo
      exact target_ne_rho s context created body (Set.mem_singleton_iff.mp written).symm
    rw [← kept, agrees, (follows_init s context m).rho, init_rho]

end Agreement

/-! ## A run that reads an old element -/

/-- A matrix that turns the vectors of the iteration around each other. -/
def rotation : System ℚ where
  na := 2
  a k := [1, -1, 1, 1].getD k 0
  colidx k := [0, 1, 0, 1].getD k 0
  rowstr j := [0, 2, 4].getD j 0
  x j := [0, 1].getD j 0
  sqrt := id

/-- Three ULTs in two pools. -/
def threeInTwo : ReductionContext ℕ := ⟨2, Fin.val, 3, by decide, by decide⟩

def blank : Memory ℚ := fun _ => 0

theorem conjGrad_agrees_rotation :
    Ensures (exec rotation threeInTwo) (Policy.inOrder (StoresRead rotation)) blank
      (conjGrad rotation threeInTwo)
      (fun final => ∀ j, final (.z j) = (Sequential.conjGrad rotation (vectors blank)).1.z j) :=
  (conjGrad_agrees rotation threeInTwo blank).1

/-- After `k` turns of the iteration loop, `p` is `r` and `k` times `r` turned by a
right angle. -/
structure Turned (k : ℕ) (state : Vectors ℚ × ℚ) : Prop where
  p0 : state.1.p 0 = state.1.r 0 - k * state.1.r 1
  p1 : state.1.p 1 = state.1.r 1 + k * state.1.r 0
  rho : state.2 = state.1.r 0 ^ 2 + state.1.r 1 ^ 2
  nonzero : state.2 ≠ 0

theorem rows_rotation : span 0 rotation.nrows = [0, 1] := rfl

theorem cols_rotation : span 0 rotation.ncols = [0, 1] := rfl

theorem rowProduct_rotation (vector : ℕ → ℚ) :
    Sequential.rowProduct rotation vector 0 = 0 + 1 * vector 0 + -1 * vector 1 ∧
      Sequential.rowProduct rotation vector 1 = 0 + 1 * vector 0 + 1 * vector 1 :=
  ⟨rfl, rfl⟩

theorem multiply_rotation (v : Vectors ℚ) :
    Sequential.multiply rotation v =
      ({ v with q := Function.update (Function.update v.q 0 (v.p 0 - v.p 1)) 1 (v.p 0 + v.p 1) },
        v.p 0 ^ 2 + v.p 1 ^ 2) := by
  obtain ⟨first, -⟩ := rowProduct_rotation v.p
  obtain ⟨-, second⟩ := rowProduct_rotation v.p
  simp only [Sequential.multiply, rows_rotation, cols_rotation, Sequential.qTurn, first, second,
    loop_cons, loop_nil, Function.update_self, ne_eq, zero_ne_one, not_false_eq_true,
    Function.update_of_ne, zero_add, one_mul, neg_one_mul, ← sub_eq_add_neg, Prod.mk.injEq,
    true_and]
  ring

theorem updated_rotation (v : Vectors ℚ) (alpha : ℚ) :
    loop (span 0 rotation.ncols) (Sequential.updateTurn alpha) (v, 0) =
      ({ v with
          z := Function.update (Function.update v.z 0 (v.z 0 + alpha * v.p 0)) 1
            (v.z 1 + alpha * v.p 1)
          r := Function.update (Function.update v.r 0 (v.r 0 - alpha * v.q 0)) 1
            (v.r 1 - alpha * v.q 1) },
        (v.r 0 - alpha * v.q 0) ^ 2 + (v.r 1 - alpha * v.q 1) ^ 2) := by
  simp [cols_rotation, Sequential.updateTurn, pow_two]

/-- The product `p.q` in a turned state. -/
theorem Turned.product {k : ℕ} {state : Vectors ℚ × ℚ} (turned : Turned k state) :
    state.1.p 0 ^ 2 + state.1.p 1 ^ 2 = (1 + (k : ℚ) ^ 2) * state.2 := by
  rw [turned.p0, turned.p1, turned.rho]
  ring

theorem Turned.turn {k : ℕ} {state : Vectors ℚ × ℚ} (turned : Turned k state) :
    Turned (k + 1) (Sequential.cgTurn rotation state) := by
  have product := turned.product
  obtain ⟨v, rho⟩ := state
  obtain ⟨p0, p1, isRho, nonzero⟩ := turned
  simp only at p0 p1 isRho nonzero product
  have positive : (1 : ℚ) + k ^ 2 ≠ 0 := by positivity
  have alpha : rho / (v.p 0 ^ 2 + v.p 1 ^ 2) = 1 / (1 + (k : ℚ) ^ 2) := by
    rw [product]
    field_simp
  have r0 : v.r 0 - 1 / (1 + (k : ℚ) ^ 2) * (v.p 0 - v.p 1) =
      (k + 1) / (1 + (k : ℚ) ^ 2) * (k * v.r 0 + v.r 1) := by
    rw [p0, p1]
    field_simp
    ring
  have r1 : v.r 1 - 1 / (1 + (k : ℚ) ^ 2) * (v.p 0 + v.p 1) =
      (k + 1) / (1 + (k : ℚ) ^ 2) * (k * v.r 1 - v.r 0) := by
    rw [p0, p1]
    field_simp
    ring
  have grown : ((k + 1) / (1 + (k : ℚ) ^ 2) * (k * v.r 0 + v.r 1)) ^ 2 +
      ((k + 1) / (1 + (k : ℚ) ^ 2) * (k * v.r 1 - v.r 0)) ^ 2 =
        (k + 1) ^ 2 / (1 + (k : ℚ) ^ 2) * rho := by
    rw [isRho]
    field_simp
    ring
  have beta : (k + 1) ^ 2 / (1 + (k : ℚ) ^ 2) * rho / rho = (k + 1) ^ 2 / (1 + (k : ℚ) ^ 2) := by
    field_simp
  simp only [Sequential.cgTurn, multiply_rotation, alpha, updated_rotation]
  simp only [Function.update_self, ne_eq, zero_ne_one, not_false_eq_true, Function.update_of_ne,
    r0, r1, grown, beta, cols_rotation, loop_cons, loop_nil, Sequential.pTurn, one_ne_zero]
  refine ⟨?_, ?_, ?_, ?_⟩
  · simp [p0]
    field_simp
    ring
  · simp [p1]
    field_simp
    ring
  · simp [grown]
  · have : (k : ℚ) + 1 ≠ 0 := by positivity
    simp only
    positivity

theorem turned_iterate (k : ℕ) :
    Turned k ((Sequential.cgTurn rotation)^[k] (Sequential.init rotation (vectors blank))) := by
  induction k with
  | zero =>
      refine ⟨?_, ?_, ?_, ?_⟩ <;> decide +kernel
  | succ k ih =>
      rw [Function.iterate_succ_apply']
      exact ih.turn

theorem noDivisionByZero_rotation : Sequential.NoDivisionByZero rotation (vectors blank) := by
  intro turn _
  have turned := turned_iterate turn
  refine ⟨?_, turned.nonzero⟩
  rw [multiply_rotation]
  simp only [turned.product]
  exact mul_ne_zero (by positivity) turned.nonzero

/-- The pool of ULT 0 and ULT 2 runs to its end before that of ULT 1 starts. -/
def firstPoolFirst : List (Option ℕ) :=
  List.replicate 6 none ++ List.replicate 4 (some 0) ++ List.replicate 4 (some 2) ++
    List.replicate 2 (some 3) ++ List.replicate 4 (some 5) ++ List.replicate 4 (some 1) ++
    List.replicate 2 (some 4) ++ List.replicate 5 none

theorem rho_firstPoolFirst :
    ((Config.start blank (conjGrad rotation threeInTwo)).play (exec rotation threeInTwo)
      firstPoolFirst).any (fun c => decide (c.memory .rho = 0)) = true := by
  decide +kernel

/-- With three ULTs in two pools, and no join between the first two loops, a run takes
an old element of `r` into the first `rho`. -/
theorem not_conjGrad_agrees :
    ¬ ∀ (s : System ℚ) (context : ReductionContext ℕ) (m : Memory ℚ),
      Sequential.NoDivisionByZero s (vectors m) →
        (∀ c, Steps (exec s context) .free (Config.start m (conjGrad s context)) c →
          c.main = loopCode s context →
            c.memory .rho = ∑ j ∈ Finset.range s.ncols, s.x j * s.x j) ∧
        ∀ c, Steps (exec s context) .free (Config.start m (conjGrad s context)) c →
          c.Finished → ∀ j, c.memory (.z j) = (Sequential.conjGrad s (vectors m)).1.z j := by
  intro agrees
  obtain ⟨c, played, zero⟩ := (Option.any_eq_true _ _).mp rho_firstPoolFirst
  have main : c.main = loopCode rotation threeInTwo := by
    rw [Config.play_main played]
    exact List.drop_left' rfl
  have sum :=
    (agrees rotation threeInTwo blank noDivisionByZero_rotation).1 c (.of_play played) main
  rw [of_decide_eq_true zero] at sum
  exact absurd sum (by decide +kernel)

end ArgobotsReduction.ConjugateGradient.Solver
