import Mathlib.Algebra.Order.BigOperators.Group.Finset
import Mathlib.Analysis.SpecialFunctions.Pow.Real
import Mathlib.Tactic.NormNum
import ArgobotsReduction.ConjugateGradient.Method
import ArgobotsReduction.ConjugateGradient.SolverRuns

/-!
# The residual that `conj_grad` reports

After the iteration loop the sequential program multiplies the matrix with `z`, and
`rnorm` is the norm of `x - A.z` (`sequential_rnorm`).  The parallel one takes `x - r`
instead, where `r` is still the residual of the iteration.  This is `A.z`, and not the
residual.

Whether the two norms agree depends on `x` and the last residual of the method alone
(`reportsResidual_iff`).  For a symmetric matrix they never do, since that residual is
orthogonal to `x`.
-/

set_option autoImplicit false

namespace ArgobotsReduction.ConjugateGradient.Solver

open Containers Matrix Parallel Parallel.ForkJoin Reduction

universe u

/-! ## The norm -/

section Norm

variable {K : Type} [Field K] {s : System K}

/-- A loop that does the same in every turn. -/
theorem loop_iterate {σ : Type u} (f : σ → σ) (items : List ℕ) (state : σ) :
    loop items (fun _ => f) state = f^[items.length] state := by
  induction items generalizing state with
  | nil => rfl
  | cons i items ih => rw [loop_cons, ih, List.length_cons, Function.iterate_succ_apply]

theorem iterations_eq (v : Vectors K) :
    loop (span 1 (cgitmax + 1)) (fun _ => Sequential.cgTurn s) (Sequential.init s v) =
      (Sequential.cgTurn s)^[cgitmax] (Sequential.init s v) :=
  loop_iterate _ _ _

/-- The true residual is the one of the iteration. -/
theorem sum_residual (inRange : s.InRange) {v : Vectors K} {rho : K} {k : ℕ}
    (reached : abstract s (v, rho) = Krylov.iterate s.matrix s.rhs k) :
    ∑ j ∈ Finset.range s.na, (s.x j - Sequential.rowProduct s v.z j) ^ 2 =
      (Krylov.iterate s.matrix s.rhs k).r ⬝ᵥ (Krylov.iterate s.matrix s.rhs k).r := by
  have residual : ∀ i : Fin s.na, s.x i - Sequential.rowProduct s v.z i =
      (Krylov.iterate s.matrix s.rhs k).r i := by
    intro i
    rw [Krylov.residual_eq, ← reached, rowProduct_eq inRange]
    rfl
  rw [Finset.sum_range fun j => (s.x j - Sequential.rowProduct s v.z j) ^ 2, dotProduct]
  exact Finset.sum_congr rfl fun i _ => by rw [residual, pow_two]

/-- **The sequential program reports the true residual.** -/
theorem sequential_rnorm (s : System K) (v : Vectors K) :
    (Sequential.conjGrad s v).2 = s.sqrt (∑ j ∈ Finset.range s.na,
      (s.x j - Sequential.rowProduct s (Sequential.conjGrad s v).1.z j) ^ 2) := by
  generalize turned : loop (span 1 (cgitmax + 1)) (fun _ => Sequential.cgTurn s)
    (Sequential.init s v) = state
  obtain ⟨w, rho⟩ := state
  have product : ∀ n, loop (span 0 n)
      (fun j v => { v with r := Function.update v.r j (Sequential.rowProduct s v.z j) }) w =
        { w with r := fun j => if j < n then Sequential.rowProduct s w.z j else w.r j } := by
    intro n
    induction n with
    | zero => rfl
    | succ n ih =>
        rw [span_succ n.zero_le, loop_append, ih, loop_cons, loop_nil]
        simp only [update_ite_lt (Sequential.rowProduct s w.z)]
  simp only [Sequential.conjGrad, turned, product, sumLoop, s.ncols_eq, s.nrows_eq]
  refine congrArg s.sqrt (Finset.sum_congr rfl fun j member => ?_)
  rw [if_pos (Finset.mem_range.mp member), pow_two]

/-- What the parallel program leaves, when its ULTs run in turn. -/
theorem execAll_rnorm {Pool : Type u} (context : ReductionContext Pool) (m : Memory K) :
    (fun j => execAll (exec s context) (sequential (conjGrad s context)) m (.z j)) =
        ((Sequential.cgTurn s)^[cgitmax] (Sequential.init s (vectors m))).1.z ∧
      execAll (exec s context) (sequential (conjGrad s context)) m .rnorm =
        s.sqrt (∑ j ∈ Finset.range s.na, (s.x j -
          ((Sequential.cgTurn s)^[cgitmax] (Sequential.init s (vectors m))).1.r j) ^ 2) := by
  obtain ⟨m', follows, final⟩ := execAll_loop s context m
  rw [iterations_eq] at follows
  constructor
  · rw [final, ← follows.vectors, ← afterThreads_final s context]
    funext j
    simp [exec, Action.target]
  · have summed := afterThreads_sum s context m'
    rw [sumLoop, s.ncols_eq] at summed
    rw [final, ← follows.vectors]
    simp [exec, Action.target, Action.value, reduceSumDouble_eq_sum, summed, pow_two]

end Norm

/-! ## When the program reports the residual -/

section Reports

variable {K : Type} [Field K] (s : System K)

/-- The square of `rnorm` is that of the residual for the `z` that is left. -/
def ReportsResidual (final : Memory K) : Prop :=
  final .rnorm * final .rnorm = ∑ j ∈ Finset.range s.na,
    (s.x j - Sequential.rowProduct s (fun j => final (.z j)) j) ^ 2

/-- Twice the product of `x` with the last residual of the method is the square of `x`. -/
def System.Balanced : Prop :=
  2 * (s.rhs ⬝ᵥ (Krylov.iterate s.matrix s.rhs cgitmax).r) = s.rhs ⬝ᵥ s.rhs

/-- A symmetric matrix is not balanced. -/
theorem not_balanced_of_isSymm {s : System K} (symmetric : s.matrix.IsSymm)
    (regular : Krylov.Regular s.matrix s.rhs cgitmax) : ¬s.Balanced := by
  intro balanced
  rw [System.Balanced, Krylov.dotProduct_residual symmetric regular (by decide) le_rfl, mul_zero]
    at balanced
  exact regular.rho 0 (by decide) balanced.symm

variable [LinearOrder K] [IsStrictOrderedRing K] {s}

theorem reportsResidual_iff_of_execAll {Pool : Type u} (context : ReductionContext Pool)
    (m : Memory K) (exact : ∀ v, 0 ≤ v → s.sqrt v * s.sqrt v = v) (inRange : s.InRange) :
    ReportsResidual s (execAll (exec s context) (sequential (conjGrad s context)) m) ↔
      s.Balanced := by
  obtain ⟨z, rnorm⟩ := execAll_rnorm (s := s) context m
  have last := abstract_iterate inRange (vectors m) cgitmax
  generalize (Sequential.cgTurn s)^[cgitmax] (Sequential.init s (vectors m)) = state at z rnorm last
  have residual : restrict s.na state.1.r = (Krylov.iterate s.matrix s.rhs cgitmax).r :=
    congrArg Krylov.Iterate.r last
  have reported : ∑ j ∈ Finset.range s.na, (s.x j - state.1.r j) ^ 2 =
      (s.rhs - (Krylov.iterate s.matrix s.rhs cgitmax).r) ⬝ᵥ
        (s.rhs - (Krylov.iterate s.matrix s.rhs cgitmax).r) := by
    rw [← residual]
    simp only [pow_two]
    exact sum_range_eq (fun j => s.x j - state.1.r j) fun j => s.x j - state.1.r j
  rw [ReportsResidual, z, rnorm, exact _ (Finset.sum_nonneg fun j _ => sq_nonneg _), reported,
    sum_residual inRange last, System.Balanced, sub_dotProduct, dotProduct_sub, dotProduct_sub]
  have swap := dotProduct_comm (Krylov.iterate s.matrix s.rhs cgitmax).r s.rhs
  constructor
  · intro same
    linear_combination -same - swap
  · intro balanced
    linear_combination -balanced - swap

end Reports

/-- **`conj_grad` reports the true residual** in exactly those cases, and never for a symmetric
matrix. -/
theorem reportsResidual_iff {K : Type} [Field K] [LinearOrder K] [IsStrictOrderedRing K]
    (s : System K) {Pool : Type u} (context : ReductionContext Pool) (m : Memory K)
    (exact : ∀ v, 0 ≤ v → s.sqrt v * s.sqrt v = v) (inRange : s.InRange)
    (nonzero : Sequential.NoDivisionByZero s (vectors m)) :
    Ensures (exec s context) (Policy.inOrder (StoresRead s)) m (conjGrad s context) fun final =>
      (ReportsResidual s final ↔ s.Balanced) ∧ (s.matrix.IsSymm → ¬ReportsResidual s final) := by
  refine (ensures_conjGrad s context m).imp fun final reached => ?_
  have reports := reportsResidual_iff_of_execAll context m exact inRange
  rw [reached]
  refine ⟨reports, fun symmetric reported => ?_⟩
  exact not_balanced_of_isSymm symmetric ((noDivisionByZero_iff inRange _).mp nonzero)
    (reports.mp reported)

/-! ## A chain -/

section Chain

variable {K : Type} [Field K] (sqrt : K → K)

/-- The symmetric matrix with twos on the diagonal, but for a one at its head, and minus ones beside
it.  Every row has three entries, and `x` is the first unit vector. -/
def chain : System K where
  na := 26
  a k :=
    match k % 3 with
    | 0 => if k / 3 = 0 then 0 else -1
    | 1 => if k / 3 = 0 then 1 else 2
    | _ => if k / 3 = 25 then 0 else -1
  colidx k :=
    match k % 3 with
    | 0 => k / 3 - 1
    | 1 => k / 3
    | _ => min (k / 3 + 1) 25
  rowstr j := 3 * j
  x j := if j = 0 then 1 else 0
  sqrt := sqrt

theorem inRange_chain : (chain sqrt).InRange := by
  intro j within k member
  have bounds : 3 * j ≤ k ∧ k < 3 * (j + 1) := mem_span.mp member
  have small : j < 26 := within
  have row : k / 3 < 26 := by omega
  change (match k % 3 with | 0 => k / 3 - 1 | 1 => k / 3 | _ => min (k / 3 + 1) 25) < 26
  split
  · exact (Nat.sub_le _ _).trans_lt row
  · exact row
  · exact (min_le_right _ _).trans_lt (Nat.lt_succ_self 25)

theorem rowProduct_chain (v : ℕ → K) (j : ℕ) : Sequential.rowProduct (chain sqrt) v j =
    (if j = 0 then 0 else -1) * v (j - 1) + (if j = 0 then 1 else 2) * v j +
      (if j = 25 then 0 else -1) * v (min (j + 1) 25) := by
  have row : span (3 * j) (3 * (j + 1)) = [3 * j, 3 * j + 1, 3 * j + 2] := by
    rw [span, show 3 * (j + 1) - 3 * j = 3 by omega]
    rfl
  have mod : 3 * j % 3 = 0 ∧ (3 * j + 1) % 3 = 1 ∧ (3 * j + 2) % 3 = 2 := by omega
  have div : 3 * j / 3 = j ∧ (3 * j + 1) / 3 = j ∧ (3 * j + 2) / 3 = j := by omega
  obtain ⟨mod₀, mod₁, mod₂⟩ := mod
  obtain ⟨div₀, div₁, div₂⟩ := div
  change loop (span (3 * j) (3 * (j + 1))) _ 0 = _
  rw [row]
  simp only [loop_cons, loop_nil, chain, mod₀, mod₁, mod₂, div₀, div₁, div₂, zero_add]

/-- The first entries are one. -/
def ones (k : ℕ) : ℕ → K := fun j => if j ≤ k then 1 else 0

/-- The entry of a unit vector is one. -/
def unit (k : ℕ) : ℕ → K := fun j => if j = k then 1 else 0

theorem dotProduct_unit {n k : ℕ} (within : k < n) (v : ℕ → K) :
    restrict n (unit k) ⬝ᵥ restrict n v = v k := by
  rw [← sum_range_eq, Finset.sum_eq_single k]
  · rw [unit, if_pos rfl, one_mul]
  · intro j _ other
    rw [unit, if_neg other, zero_mul]
  · exact fun absent => absurd (Finset.mem_range.mpr within) absent

theorem mulVec_chain {k : ℕ} (within : k < 25) :
    (chain sqrt).matrix *ᵥ restrict (chain sqrt).na (ones k) =
      restrict (chain sqrt).na (unit k) - restrict (chain sqrt).na (unit (k + 1)) := by
  funext i
  have small : (i : ℕ) < 26 := i.isLt
  refine (rowProduct_eq (inRange_chain sqrt) (ones k) i).symm.trans ?_
  rw [rowProduct_chain]
  simp only [ones, unit, restrict, Pi.sub_apply]
  split_ifs <;> first | (exfalso; omega) | norm_num

/-- **Every step of the method goes one entry on.** -/
theorem iterate_chain {k : ℕ} (within : k < 26) :
    (Krylov.iterate (chain sqrt).matrix (chain sqrt).rhs k).r =
        restrict (chain sqrt).na (unit k) ∧
      (Krylov.iterate (chain sqrt).matrix (chain sqrt).rhs k).p =
        restrict (chain sqrt).na (ones k) ∧
      (Krylov.iterate (chain sqrt).matrix (chain sqrt).rhs k).rho = 1 := by
  have square : ∀ i < 26, restrict (chain sqrt).na (unit i) ⬝ᵥ restrict (chain sqrt).na (unit i) =
      (1 : K) := fun i small => (dotProduct_unit (n := (chain sqrt).na) small (unit i)).trans
        (if_pos rfl)
  induction k with
  | zero =>
      refine ⟨rfl, ?_, square 0 within⟩
      funext i
      simp [Krylov.iterate, Krylov.start, System.rhs, chain, restrict, ones]
  | succ k ih =>
      obtain ⟨r, p, rho⟩ := ih (Nat.lt_of_succ_lt within)
      have product := mulVec_chain sqrt (Nat.lt_of_succ_lt_succ within)
      have alpha : Krylov.alpha (chain sqrt).matrix
          (Krylov.iterate (chain sqrt).matrix (chain sqrt).rhs k) = 1 := by
        have here := dotProduct_unit (n := (chain sqrt).na) (Nat.lt_of_succ_lt within)
          (ones k : ℕ → K)
        have after := dotProduct_unit (n := (chain sqrt).na) within (ones k : ℕ → K)
        rw [Krylov.alpha, p, product, rho, dotProduct_comm, sub_dotProduct, here, after]
        simp [ones]
      have next : Krylov.nextResidual (chain sqrt).matrix
          (Krylov.iterate (chain sqrt).matrix (chain sqrt).rhs k) =
            restrict (chain sqrt).na (unit (k + 1)) := by
        rw [Krylov.nextResidual, alpha, one_smul, r, p, product, sub_sub_cancel]
      rw [Krylov.iterate_succ, Krylov.step]
      dsimp only
      rw [next, rho, square _ within, div_one, one_smul, p]
      refine ⟨rfl, ?_, rfl⟩
      funext i
      simp only [restrict, ones, unit, Pi.add_apply]
      split_ifs <;> first | (exfalso; omega) | norm_num

theorem regular_chain : Krylov.Regular (chain sqrt).matrix (chain sqrt).rhs cgitmax := by
  constructor
  · intro k within
    obtain ⟨-, p, -⟩ := iterate_chain sqrt (Nat.lt_succ_of_lt within)
    have here := dotProduct_unit (n := (chain sqrt).na) (Nat.lt_succ_of_lt within)
      (ones k : ℕ → K)
    have after := dotProduct_unit (n := (chain sqrt).na) (Nat.succ_lt_succ within)
      (ones k : ℕ → K)
    rw [p, mulVec_chain sqrt within, dotProduct_comm, sub_dotProduct, here, after]
    simp [ones]
  · intro k within
    rw [(iterate_chain sqrt (Nat.lt_succ_of_lt within)).2.2]
    exact one_ne_zero

/-- The last residual is orthogonal to `x`. -/
theorem not_balanced_chain : ¬(chain sqrt).Balanced := by
  have first := (iterate_chain sqrt (Nat.succ_pos 25)).1
  have last := (iterate_chain sqrt (Nat.lt_succ_self 25)).1
  have rhs : (chain sqrt).rhs = restrict (chain sqrt).na (unit 0) := first
  have square := dotProduct_unit (n := (chain sqrt).na) (Nat.succ_pos 25) (unit 0 : ℕ → K)
  have product := dotProduct_unit (n := (chain sqrt).na) (Nat.succ_pos 25) (unit 25 : ℕ → K)
  rw [System.Balanced, cgitmax, last, rhs, square, product]
  simp [unit]

end Chain

/-- No run on the chain reports the residual. -/
theorem reportsResidual_iff_chain :
    Ensures (exec (chain Real.sqrt) threeInTwo) (Policy.inOrder (StoresRead (chain Real.sqrt)))
      (fun _ => 0) (conjGrad (chain Real.sqrt) threeInTwo)
      fun final => ¬ReportsResidual (chain Real.sqrt) final := by
  have nonzero := (noDivisionByZero_iff (inRange_chain Real.sqrt) (vectors fun _ => 0)).mpr
    (regular_chain Real.sqrt)
  have reports := reportsResidual_iff (chain Real.sqrt) threeInTwo (fun _ => 0)
    (fun _ => Real.mul_self_sqrt) (inRange_chain Real.sqrt) nonzero
  exact reports.imp fun final ⟨iff, _⟩ => (not_congr iff).mpr (not_balanced_chain Real.sqrt)

/-- A run on the chain reports another norm, although no number is divided by zero. -/
theorem not_reportsResidual :
    ¬∀ (s : System ℝ) (context : ReductionContext ℕ) (m : Memory ℝ),
      (∀ v, 0 ≤ v → s.sqrt v * s.sqrt v = v) → s.InRange →
        Sequential.NoDivisionByZero s (vectors m) →
          ∀ c, Steps (exec s context) .free (Config.start m (conjGrad s context)) c →
            c.Finished → ReportsResidual s c.memory := by
  intro reports
  have nonzero := (noDivisionByZero_iff (inRange_chain Real.sqrt) (vectors fun _ => 0)).mpr
    (regular_chain Real.sqrt)
  have ensures := ensures_conjGrad (chain Real.sqrt) threeInTwo fun _ => 0
  obtain ⟨c, run, finished⟩ := ensures.exists_finished
  have reported := reports (chain Real.sqrt) threeInTwo (fun _ => 0) (fun _ => Real.mul_self_sqrt)
    (inRange_chain Real.sqrt) nonzero c (run.mono fun _ _ _ => trivial) finished
  rw [ensures.result c run finished] at reported
  exact not_balanced_chain Real.sqrt ((reportsResidual_iff_of_execAll threeInTwo (fun _ => 0)
    (fun _ => Real.mul_self_sqrt) (inRange_chain Real.sqrt)).mp reported)

end ArgobotsReduction.ConjugateGradient.Solver
