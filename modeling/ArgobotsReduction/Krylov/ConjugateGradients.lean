import Mathlib.LinearAlgebra.Matrix.Symmetric
import Mathlib.Tactic.FieldSimp
import Mathlib.Tactic.LinearCombination

/-!
# The method of conjugate gradients

The method solves `A z = b` by steps along directions `p`.  It keeps the residual
`r = b - A z` by a recurrence, without a product of `A` and `z` (`residual_eq`).

When `A` is symmetric and no step divides by zero, the directions are conjugate, and
every residual is orthogonal to the directions before it (`orthogonal_iterate`).  So it
is orthogonal to `b`, the first of them (`dotProduct_residual`).
-/

set_option autoImplicit false

namespace Krylov

open Matrix

universe u v

variable {ι : Type u} [Fintype ι] {K : Type v} [Field K]

/-- The vectors of the method, and the square `rho` of the residual. -/
@[ext]
structure Iterate (ι : Type u) (K : Type v) where
  z : ι → K
  r : ι → K
  p : ι → K
  rho : K

/-- The method starts at zero. -/
def start (b : ι → K) : Iterate ι K where
  z := 0
  r := b
  p := b
  rho := b ⬝ᵥ b

/-- The length of a step. -/
def alpha (A : Matrix ι ι K) (s : Iterate ι K) : K := s.rho / (s.p ⬝ᵥ A *ᵥ s.p)

/-- The residual after a step. -/
def nextResidual (A : Matrix ι ι K) (s : Iterate ι K) : ι → K := s.r - alpha A s • A *ᵥ s.p

def step (A : Matrix ι ι K) (s : Iterate ι K) : Iterate ι K :=
  let r := nextResidual A s
  let rho := r ⬝ᵥ r
  { z := s.z + alpha A s • s.p
    r := r
    p := r + (rho / s.rho) • s.p
    rho := rho }

def iterate (A : Matrix ι ι K) (b : ι → K) (k : ℕ) : Iterate ι K := (step A)^[k] (start b)

variable {A : Matrix ι ι K} {b : ι → K}

theorem iterate_succ (k : ℕ) : iterate A b (k + 1) = step A (iterate A b k) :=
  Function.iterate_succ_apply' _ _ _

/-- **The recurrence keeps the residual.** -/
theorem residual_eq (k : ℕ) : (iterate A b k).r = b - A *ᵥ (iterate A b k).z := by
  induction k with
  | zero => rw [iterate, Function.iterate_zero_apply, start, mulVec_zero, sub_zero]
  | succ k ih =>
      rw [iterate_succ, step, nextResidual, ih, mulVec_add, mulVec_smul, sub_sub]

theorem rho_eq (k : ℕ) : (iterate A b k).rho = (iterate A b k).r ⬝ᵥ (iterate A b k).r := by
  cases k with
  | zero => rfl
  | succ k =>
      rw [iterate_succ]
      rfl

/-- No one of the first steps divides by zero. -/
structure Regular (A : Matrix ι ι K) (b : ι → K) (n : ℕ) : Prop where
  direction : ∀ k < n, (iterate A b k).p ⬝ᵥ A *ᵥ (iterate A b k).p ≠ 0
  rho : ∀ k < n, (iterate A b k).rho ≠ 0

/-- What holds of the residual and the direction of a step. -/
structure Orthogonal (A : Matrix ι ι K) (b : ι → K) (k : ℕ) : Prop where
  residual : ∀ i < k, (iterate A b k).r ⬝ᵥ (iterate A b i).p = 0
  conjugate : ∀ i < k, (iterate A b k).p ⬝ᵥ A *ᵥ (iterate A b i).p = 0
  self : (iterate A b k).r ⬝ᵥ (iterate A b k).p = (iterate A b k).rho

/-- A vector that is orthogonal to the directions is orthogonal to the residuals. -/
theorem dotProduct_residual_of_directions {w : ι → K} {i : ℕ}
    (directions : ∀ j ≤ i, w ⬝ᵥ (iterate A b j).p = 0) : w ⬝ᵥ (iterate A b i).r = 0 := by
  cases i with
  | zero => exact directions 0 le_rfl
  | succ i =>
      have last := directions (i + 1) le_rfl
      have before := directions i i.le_succ
      rw [iterate_succ] at last ⊢
      rw [step, dotProduct_add, dotProduct_smul, before, smul_zero, add_zero] at last
      exact last

/-- The next residual is orthogonal to all directions so far. -/
theorem Orthogonal.residual_succ {k n : ℕ} (orthogonal : Orthogonal A b k)
    (symmetric : A.IsSymm) (regular : Regular A b n) (within : k < n) :
    ∀ i ≤ k, (iterate A b (k + 1)).r ⬝ᵥ (iterate A b i).p = 0 := by
  intro i upTo
  have moved : (iterate A b (k + 1)).r ⬝ᵥ (iterate A b i).p =
      (iterate A b k).r ⬝ᵥ (iterate A b i).p -
        alpha A (iterate A b k) * ((iterate A b k).p ⬝ᵥ A *ᵥ (iterate A b i).p) := by
    rw [iterate_succ, step, nextResidual, sub_dotProduct, smul_dotProduct, smul_eq_mul,
      dotProduct_mulVec, ← mulVec_transpose, symmetric.eq]
  rcases Nat.lt_or_eq_of_le upTo with earlier | rfl
  · rw [moved, orthogonal.residual i earlier, orthogonal.conjugate i earlier, mul_zero, sub_zero]
  · rw [moved, orthogonal.self, alpha, div_mul_cancel₀ _ (regular.direction i within), sub_self]

/-- The product of `A` and a direction is a difference of residuals. -/
theorem smul_mulVec_direction (k : ℕ) :
    alpha A (iterate A b k) • A *ᵥ (iterate A b k).p =
      (iterate A b k).r - (iterate A b (k + 1)).r := by
  rw [iterate_succ, step, nextResidual, sub_sub_cancel]

theorem Orthogonal.succ {k n : ℕ} (orthogonal : Orthogonal A b k) (symmetric : A.IsSymm)
    (regular : Regular A b n) (within : k < n) : Orthogonal A b (k + 1) := by
  have residual := orthogonal.residual_succ symmetric regular within
  have direction : (iterate A b (k + 1)).p = (iterate A b (k + 1)).r +
      ((iterate A b (k + 1)).rho / (iterate A b k).rho) • (iterate A b k).p := by
    rw [iterate_succ]
    rfl
  refine ⟨fun i before => residual i (Nat.le_of_lt_succ before), fun i before => ?_, ?_⟩
  · have upTo := Nat.le_of_lt_succ before
    have nonzero : alpha A (iterate A b i) ≠ 0 :=
      div_ne_zero (regular.rho i (upTo.trans_lt within))
        (regular.direction i (upTo.trans_lt within))
    have rest : (iterate A b (k + 1)).r ⬝ᵥ (iterate A b i).r = 0 :=
      dotProduct_residual_of_directions fun j least => residual j (least.trans upTo)
    -- The new residual meets `A p` only in the last difference of residuals.
    have product : alpha A (iterate A b i) * ((iterate A b (k + 1)).r ⬝ᵥ A *ᵥ (iterate A b i).p) =
        -((iterate A b (k + 1)).r ⬝ᵥ (iterate A b (i + 1)).r) := by
      rw [← smul_eq_mul, ← dotProduct_smul, smul_mulVec_direction, dotProduct_sub, rest, zero_sub]
    rw [direction, add_dotProduct, smul_dotProduct, smul_eq_mul]
    rcases Nat.lt_or_eq_of_le upTo with earlier | rfl
    · have next : (iterate A b (k + 1)).r ⬝ᵥ (iterate A b (i + 1)).r = 0 :=
        dotProduct_residual_of_directions fun j least => residual j (least.trans earlier)
      rw [next, neg_zero] at product
      rw [orthogonal.conjugate i earlier, mul_zero, add_zero]
      exact (mul_eq_zero.mp product).resolve_left nonzero
    · rw [← rho_eq] at product
      have first := regular.rho i within
      have second := regular.direction i within
      rw [alpha] at product
      field_simp at product ⊢
      linear_combination product
  · rw [direction, dotProduct_add, dotProduct_smul, residual k le_rfl, smul_zero, add_zero, rho_eq]

/-- **Residuals are orthogonal to the directions before them, and these are conjugate.** -/
theorem orthogonal_iterate {n : ℕ} (symmetric : A.IsSymm) (regular : Regular A b n) {k : ℕ}
    (within : k ≤ n) : Orthogonal A b k := by
  induction k with
  | zero => exact ⟨nofun, nofun, rfl⟩
  | succ k ih => exact (ih (Nat.le_of_succ_le within)).succ symmetric regular within

/-- Every residual but the first is orthogonal to `b`. -/
theorem dotProduct_residual {n k : ℕ} (symmetric : A.IsSymm) (regular : Regular A b n)
    (positive : 0 < k) (within : k ≤ n) : b ⬝ᵥ (iterate A b k).r = 0 := by
  rw [dotProduct_comm]
  exact (orthogonal_iterate symmetric regular within).residual 0 positive

end Krylov
