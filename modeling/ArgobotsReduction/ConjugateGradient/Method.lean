import Mathlib.Algebra.BigOperators.Fin
import ArgobotsReduction.ConjugateGradient.SolverValues
import ArgobotsReduction.Krylov.ConjugateGradients

/-!
# The sequential program is the method of conjugate gradients

The matrix of a system is the one that its rows in `a` and `colidx` spell out, and its
product with a vector is what the loop over a row computes (`rowProduct_eq`).  The
loops over the vectors are then the operations of the method, and the iteration loop
takes its steps (`abstract_iterate`).
-/

set_option autoImplicit false

namespace ArgobotsReduction.ConjugateGradient.Solver

open Containers Matrix

universe u v

/-! ## The matrix -/

section Matrix

variable {K : Type} [Field K] (s : System K)

/-- Every column index is in range. -/
def System.InRange : Prop :=
  ∀ j < s.na, ∀ k ∈ span (s.rowstr j) (s.rowstr (j + 1)), s.colidx k < s.na

/-- The matrix in `a`, `colidx` and `rowstr`. -/
def System.matrix : Matrix (Fin s.na) (Fin s.na) K := fun i j =>
  ((span (s.rowstr i) (s.rowstr (i + 1))).map fun k => if s.colidx k = j then s.a k else 0).sum

/-- The part of an array that the solver works on. -/
def restrict (n : ℕ) (v : ℕ → K) : Fin n → K := fun i => v i

theorem loop_sum (items : List ℕ) (f : ℕ → K) (x : K) :
    loop items (fun k sum => sum + f k) x = x + (items.map f).sum := by
  induction items generalizing x with
  | nil => simp
  | cons k items ih => rw [loop_cons, ih, List.map_cons, List.sum_cons, add_assoc]

/-- The entries of a row, with the entries of a vector in their columns. -/
theorem sum_entries {n : ℕ} (items : List ℕ) (col : ℕ → ℕ) (a v : ℕ → K)
    (inRange : ∀ k ∈ items, col k < n) :
    ∑ j : Fin n, (items.map fun k => if col k = j then a k else 0).sum * v j =
      (items.map fun k => a k * v (col k)).sum := by
  induction items with
  | nil => simp
  | cons k items ih =>
      obtain ⟨within, inRange⟩ := List.forall_mem_cons.mp inRange
      have entry : ∑ j : Fin n, (if col k = j then a k else 0) * v j = a k * v (col k) := by
        rw [Finset.sum_eq_single ⟨col k, within⟩]
        · rw [if_pos rfl]
        · intro j _ other
          rw [if_neg fun same => other (Fin.ext same.symm), zero_mul]
        · exact fun absent => absurd (Finset.mem_univ _) absent
      simp only [List.map_cons, List.sum_cons, add_mul, Finset.sum_add_distrib]
      rw [entry, ih inRange]

/-- **The loop over a row multiplies with the matrix.** -/
theorem rowProduct_eq {s : System K} (inRange : s.InRange) (v : ℕ → K) (i : Fin s.na) :
    Sequential.rowProduct s v i = (s.matrix *ᵥ restrict s.na v) i := by
  rw [Sequential.rowProduct, loop_sum, zero_add, ← sum_entries _ _ _ _ (inRange i i.isLt)]
  rfl

theorem sum_range_eq {n : ℕ} (f g : ℕ → K) :
    ∑ j ∈ Finset.range n, f j * g j = restrict n f ⬝ᵥ restrict n g :=
  Finset.sum_range fun j => f j * g j

end Matrix

/-! ## The loops over the vectors -/

section Loops

/-- A store to the next entry. -/
theorem update_ite_lt {α : Type u} (f g : ℕ → α) (n : ℕ) :
    Function.update (fun j => if j < n then f j else g j) n (f n) =
      fun j => if j < n + 1 then f j else g j := by
  funext j
  rcases Nat.lt_trichotomy j n with before | rfl | after
  · rw [Function.update_of_ne before.ne, if_pos before, if_pos (Nat.lt_succ_of_lt before)]
  · rw [Function.update_self, if_pos j.lt_succ_self]
  · rw [Function.update_of_ne after.ne', if_neg after.not_gt, if_neg (by omega)]

variable {K : Type} [Field K] (s : System K) (v : Vectors K) (n : ℕ)

theorem initLoop : loop (span 0 n) (Sequential.initTurn s) v =
    { q := fun j => if j < n then 0 else v.q j
      z := fun j => if j < n then 0 else v.z j
      r := fun j => if j < n then s.x j else v.r j
      p := fun j => if j < n then s.x j else v.p j } := by
  induction n with
  | zero => rfl
  | succ n ih =>
      rw [span_succ n.zero_le, loop_append, ih, loop_cons, loop_nil, Sequential.initTurn]
      simp only [Function.update_self, update_ite_lt (fun _ => (0 : K)), update_ite_lt s.x]

theorem qLoop : loop (span 0 n) (Sequential.qTurn s) v =
    { v with q := fun j => if j < n then Sequential.rowProduct s v.p j else v.q j } := by
  induction n with
  | zero => rfl
  | succ n ih =>
      rw [span_succ n.zero_le, loop_append, ih, loop_cons, loop_nil, Sequential.qTurn]
      simp only [update_ite_lt (Sequential.rowProduct s v.p)]

theorem updateLoop (alpha : K) : loop (span 0 n) (Sequential.updateTurn alpha) (v, 0) =
    ({ v with
        z := fun j => if j < n then v.z j + alpha * v.p j else v.z j
        r := fun j => if j < n then v.r j - alpha * v.q j else v.r j },
      ∑ j ∈ Finset.range n, (v.r j - alpha * v.q j) * (v.r j - alpha * v.q j)) := by
  induction n with
  | zero => rfl
  | succ n ih =>
      rw [span_succ n.zero_le, loop_append, ih, loop_cons, loop_nil, Sequential.updateTurn]
      simp only [lt_self_iff_false, if_false, Function.update_self, Finset.sum_range_succ,
        update_ite_lt fun j => v.z j + alpha * v.p j, update_ite_lt fun j => v.r j - alpha * v.q j]

theorem pLoop (beta : K) : loop (span 0 n) (Sequential.pTurn beta) v =
    { v with p := fun j => if j < n then v.r j + beta * v.p j else v.p j } := by
  induction n with
  | zero => rfl
  | succ n ih =>
      rw [span_succ n.zero_le, loop_append, ih, loop_cons, loop_nil, Sequential.pTurn]
      simp only [lt_self_iff_false, if_false, update_ite_lt fun j => v.r j + beta * v.p j]

theorem sumLoop (f : ℕ → K) :
    loop (span 0 n) (fun j sum => sum + f j) 0 = ∑ j ∈ Finset.range n, f j := by
  rw [span, Nat.sub_zero, ← List.range_eq_range', loop_add, zero_add]

end Loops

/-! ## The method -/

section Method

variable {K : Type} [Field K] (s : System K)

/-- The right hand side. -/
def System.rhs : Fin s.na → K := restrict s.na s.x

/-- The vectors and `rho` as the method has them. -/
def abstract (state : Vectors K × K) : Krylov.Iterate (Fin s.na) K where
  z := restrict s.na state.1.z
  r := restrict s.na state.1.r
  p := restrict s.na state.1.p
  rho := state.2

omit [Field K] in
/-- The loops run over all rows and columns. -/
theorem System.nrows_eq : s.nrows = s.na := by simp [nrows, lastrow, firstrow]

section Restrict

variable (n : ℕ) (f g : ℕ → K) (c : K)

omit [Field K] in
@[simp] theorem restrict_ite : restrict n (fun j => if j < n then f j else g j) = restrict n f :=
  funext fun i => if_pos i.isLt

@[simp] theorem restrict_add_mul :
    restrict n (fun j => f j + c * g j) = restrict n f + c • restrict n g := rfl

@[simp] theorem restrict_sub_mul :
    restrict n (fun j => f j - c * g j) = restrict n f - c • restrict n g := rfl

end Restrict

theorem abstract_init (v : Vectors K) :
    abstract s (Sequential.init s v) = Krylov.start s.rhs := by
  have within : ∀ f y : ℕ → K, restrict s.na (fun j => if j < s.na + 1 then f j else y j) =
      restrict s.na f := fun f y => funext fun i => if_pos (Nat.lt_succ_of_lt i.isLt)
  have cleared : restrict s.na (fun _ => (0 : K)) = 0 := rfl
  simp only [abstract, Sequential.init, initLoop, sumLoop, s.ncols_eq, sum_range_eq, System.naa,
    within s.x, within fun _ => (0 : K), cleared, Krylov.start, System.rhs]

/-- `q = A.p`, and `d = p.q` -/
theorem multiply_eq {s : System K} (inRange : s.InRange) (v : Vectors K) :
    ∃ q : ℕ → K, restrict s.na q = s.matrix *ᵥ restrict s.na v.p ∧
      Sequential.multiply s v =
        ({ v with q := q }, restrict s.na v.p ⬝ᵥ s.matrix *ᵥ restrict s.na v.p) := by
  have product : restrict s.na
      (fun j => if j < s.na then Sequential.rowProduct s v.p j else v.q j) =
        s.matrix *ᵥ restrict s.na v.p := by
    rw [restrict_ite]
    exact funext (rowProduct_eq inRange v.p)
  refine ⟨_, product, ?_⟩
  simp only [Sequential.multiply, qLoop, s.nrows_eq, sumLoop, s.ncols_eq, sum_range_eq, product]

/-- **A turn of the iteration loop is a step of the method.** -/
theorem abstract_cgTurn {s : System K} (inRange : s.InRange) (state : Vectors K × K) :
    abstract s (Sequential.cgTurn s state) = Krylov.step s.matrix (abstract s state) := by
  obtain ⟨q, product, multiplied⟩ := multiply_eq inRange state.1
  simp only [abstract, Sequential.cgTurn, multiplied, updateLoop, pLoop, s.ncols_eq, sum_range_eq,
    restrict_ite, restrict_add_mul, restrict_sub_mul, product, Krylov.step, Krylov.nextResidual,
    Krylov.alpha]

/-- **The iteration loop runs the method.** -/
theorem abstract_iterate {s : System K} (inRange : s.InRange) (v : Vectors K) (k : ℕ) :
    abstract s ((Sequential.cgTurn s)^[k] (Sequential.init s v)) =
      Krylov.iterate s.matrix s.rhs k := by
  induction k with
  | zero => exact abstract_init s v
  | succ k ih => rw [Function.iterate_succ_apply', abstract_cgTurn inRange, ih, Krylov.iterate_succ]

/-- The sequential program divides by the same numbers as the method. -/
theorem noDivisionByZero_iff {s : System K} (inRange : s.InRange) (v : Vectors K) :
    Sequential.NoDivisionByZero s v ↔ Krylov.Regular s.matrix s.rhs cgitmax := by
  have d : ∀ k, (Sequential.multiply s ((Sequential.cgTurn s)^[k] (Sequential.init s v)).1).2 =
      (Krylov.iterate s.matrix s.rhs k).p ⬝ᵥ s.matrix *ᵥ (Krylov.iterate s.matrix s.rhs k).p := by
    intro k
    rw [← abstract_iterate inRange v k]
    obtain ⟨q, -, multiplied⟩ := multiply_eq inRange
      ((Sequential.cgTurn s)^[k] (Sequential.init s v)).1
    rw [multiplied]
    rfl
  have rho : ∀ k, ((Sequential.cgTurn s)^[k] (Sequential.init s v)).2 =
      (Krylov.iterate s.matrix s.rhs k).rho := fun k => by
    rw [← abstract_iterate inRange v k]
    rfl
  simp only [Sequential.NoDivisionByZero, d, rho]
  exact ⟨fun nonzero =>
      ⟨fun k within => (nonzero k within).1, fun k within => (nonzero k within).2⟩,
    fun regular k within => ⟨regular.direction k within, regular.rho k within⟩⟩

end Method

end ArgobotsReduction.ConjugateGradient.Solver
