import Mathlib.Algebra.Order.Floor.Ring
import Mathlib.Algebra.Order.Field.Power
import Mathlib.Data.Int.Log
import Mathlib.Data.Rat.Floor
import Mathlib.Tactic.FieldSimp
import Mathlib.Tactic.Linarith
import Mathlib.Tactic.Positivity
import Mathlib.Tactic.Ring

/-!
# Binary floating-point numbers

A binary format with `p` digits has the numbers `m * 2 ^ e` with `|m| < 2 ^ p`.  The exponents are
not bounded here, so that the format has no largest and no smallest number.  An operation
computes its exact result, and rounds it to a number of the format.

A program whose exact results are all in the format computes the same in every rounding mode, and
in every format with more digits.  Such a program only needs that rounding leaves the numbers of
the format alone (`Rounding`).  Rounding to the nearest number, to the even one of two, does
(`nearestEven`).
-/

set_option autoImplicit false

namespace Numerics

/-- A number of the format with `p` digits -/
def Representable (p : ℕ) (x : ℚ) : Prop :=
  ∃ m e : ℤ, |m| < 2 ^ p ∧ x = m * 2 ^ e

theorem Representable.mono {p q : ℕ} {x : ℚ} (representable : Representable p x) (more : p ≤ q) :
    Representable q x := by
  obtain ⟨m, e, small, same⟩ := representable
  exact ⟨m, e, small.trans_le (pow_le_pow_right₀ one_le_two more), same⟩

theorem representable_natCast {p n : ℕ} (small : n < 2 ^ p) : Representable p n :=
  ⟨n, 0, by rw [Nat.abs_cast]; exact_mod_cast small, by simp⟩

/-- A number of the format, divided by a power of two -/
theorem Representable.div {p : ℕ} {x : ℚ} (representable : Representable p x) (k : ℕ) :
    Representable p (x / 2 ^ k) := by
  obtain ⟨m, e, small, rfl⟩ := representable
  refine ⟨m, e - k, small, ?_⟩
  rw [zpow_sub₀ two_ne_zero, zpow_natCast, mul_div_assoc]

/-- The operations of a format round their exact results.  What the format has is not changed. -/
structure Rounding (p : ℕ) where
  round : ℚ → ℚ
  exact : ∀ x, Representable p x → round x = x

namespace Rounding

variable {p : ℕ} (fl : Rounding p)

def add (x y : ℚ) : ℚ := fl.round (x + y)

def sub (x y : ℚ) : ℚ := fl.round (x - y)

def mul (x y : ℚ) : ℚ := fl.round (x * y)

variable {fl} {m n : ℕ}

theorem add_natCast (small : m + n < 2 ^ p) : fl.add m n = ((m + n : ℕ) : ℚ) := by
  rw [add, ← Nat.cast_add]
  exact fl.exact _ (representable_natCast small)

theorem sub_natCast (le : n ≤ m) (small : m < 2 ^ p) : fl.sub m n = ((m - n : ℕ) : ℚ) := by
  rw [sub, ← Nat.cast_sub le]
  exact fl.exact _ (representable_natCast ((Nat.sub_le m n).trans_lt small))

theorem mul_natCast (small : m * n < 2 ^ p) : fl.mul m n = ((m * n : ℕ) : ℚ) := by
  rw [mul, ← Nat.cast_mul]
  exact fl.exact _ (representable_natCast small)

/-- A multiplication by a negative power of two loses nothing. -/
theorem mul_scale (k : ℕ) (small : m < 2 ^ p) : fl.mul (1 / 2 ^ k) m = (m : ℚ) / 2 ^ k := by
  rw [mul, one_div_mul_eq_div]
  exact fl.exact _ ((representable_natCast small).div k)

end Rounding

/-! ## Rounding to the nearest number -/

/-- The nearest integer, the even one of two -/
def halfEven (x : ℚ) : ℤ :=
  if x - ⌊x⌋ < 1 / 2 then ⌊x⌋
  else if 1 / 2 < x - ⌊x⌋ then ⌊x⌋ + 1
  else if ⌊x⌋ % 2 = 0 then ⌊x⌋
  else ⌊x⌋ + 1

theorem halfEven_intCast (n : ℤ) : halfEven n = n := by
  rw [halfEven, Int.floor_intCast, sub_self, if_pos one_half_pos]

/-- The distance of the numbers with `p` digits near `x` -/
def ulp (p : ℕ) (x : ℚ) : ℚ := 2 ^ (Int.log 2 |x| + 1 - p)

/-- The nearest number with `p` digits, the even one of two -/
def roundNearestEven (p : ℕ) (x : ℚ) : ℚ := halfEven (x / ulp p x) * ulp p x

/-- A number of the format is a multiple of the distance of its neighbours. -/
theorem Representable.exists_mul_ulp {p : ℕ} {x : ℚ} (representable : Representable p x)
    (nonzero : x ≠ 0) : ∃ n : ℤ, x = n * ulp p x := by
  obtain ⟨m, e, small, same⟩ := representable
  have above : |x| < 2 ^ (p + e : ℤ) := by
    have power : (0 : ℚ) < 2 ^ e := zpow_pos two_pos e
    rw [same, abs_mul, abs_of_pos power, zpow_add₀ two_ne_zero, zpow_natCast]
    exact mul_lt_mul_of_pos_right (by exact_mod_cast small) power
  have below : Int.log 2 |x| < p + e :=
    (Int.lt_zpow_iff_log_lt one_lt_two (abs_pos.mpr nonzero)).mp (by exact_mod_cast above)
  obtain ⟨k, exponent⟩ : ∃ k : ℕ, e = k + (Int.log 2 |x| + 1 - p) :=
    ⟨(e - (Int.log 2 |x| + 1 - p)).toNat, by omega⟩
  refine ⟨m * 2 ^ k, ?_⟩
  rw [ulp, Int.cast_mul, Int.cast_pow, Int.cast_ofNat, mul_assoc, ← zpow_natCast,
    ← zpow_add₀ two_ne_zero, ← exponent]
  exact same

theorem roundNearestEven_exact {p : ℕ} {x : ℚ} (representable : Representable p x) :
    roundNearestEven p x = x := by
  rcases eq_or_ne x 0 with rfl | nonzero
  · have zero : halfEven 0 = 0 := by exact_mod_cast halfEven_intCast 0
    rw [roundNearestEven, zero_div, zero, Int.cast_zero, zero_mul]
  · obtain ⟨n, multiple⟩ := representable.exists_mul_ulp nonzero
    have distance : ulp p x ≠ 0 := zpow_ne_zero _ two_ne_zero
    have quotient : x / ulp p x = n := by rw [div_eq_iff distance, ← multiple]
    rw [roundNearestEven, quotient, halfEven_intCast, ← multiple]

/-- The mode that is used unless a program asks for another one -/
def nearestEven (p : ℕ) : Rounding p where
  round := roundNearestEven p
  exact _ := roundNearestEven_exact

/-- A number of the format, one near a number of the format, and one in the middle of two -/
example : (nearestEven 3).round (5 / 16) = 5 / 16 ∧ (nearestEven 2).round (9 / 2) = 4 ∧
    (nearestEven 2).round 7 = 8 := by decide +kernel

end Numerics
