import Mathlib.Data.Nat.Digits.Defs
import Mathlib.Data.List.Infix
import Mathlib.Tactic.Ring

/-!
# Reading a numeral digit by digit

A reader keeps the value of the digits it has read, and takes one digit after the other
by Horner's rule.  The value only grows, so that a reader with a limit may stop as soon
as the limit is passed.  Whether the next digit passes it can be decided with a division
and a difference alone, neither of which leaves the range (`passes_iff`).

A value outside an interval is clamped to it.
-/

set_option autoImplicit false

namespace Numerals

/-! ## Horner's rule -/

/-- The value after some more digits. -/
def horner (base : ℕ) (value : ℕ) (digits : List ℕ) : ℕ :=
  digits.foldl (fun v d => v * base + d) value

variable {base : ℕ}

@[simp]
theorem horner_nil (value : ℕ) : horner base value [] = value := rfl

@[simp]
theorem horner_cons (value d : ℕ) (digits : List ℕ) :
    horner base value (d :: digits) = horner base (value * base + d) digits := rfl

/-- A numeral has its most significant digit first. -/
theorem horner_eq (value : ℕ) (digits : List ℕ) :
    horner base value digits =
      Nat.ofDigits base digits.reverse + base ^ digits.length * value := by
  induction digits generalizing value with
  | nil => simp
  | cons d digits ih =>
      rw [horner_cons, ih, List.reverse_cons, Nat.ofDigits_append, Nat.ofDigits_singleton,
        List.length_reverse, List.length_cons, pow_succ]
      ring

theorem horner_zero (digits : List ℕ) :
    horner base 0 digits = Nat.ofDigits base digits.reverse := by
  rw [horner_eq, Nat.mul_zero, Nat.add_zero]

theorem le_horner (positive : 0 < base) (value : ℕ) (digits : List ℕ) :
    value ≤ horner base value digits := by
  induction digits generalizing value with
  | nil => exact Nat.le_refl value
  | cons d digits ih =>
      calc
        value ≤ value * base := Nat.le_mul_of_pos_right value positive
        _ ≤ value * base + d := Nat.le_add_right _ d
        _ ≤ horner base (value * base + d) digits := ih _

/-! ## A limit -/

/-- **The next digit passes the limit exactly where one of two tests says so.**  The second
test is only made where the product is within the limit. -/
theorem passes_iff {limit value d : ℕ} (positive : 0 < base) (small : d ≤ limit) :
    limit < value * base + d ↔ limit / base < value ∨ limit - d < value * base := by
  have quotient : limit / base < value ↔ limit < value * base := Nat.div_lt_iff_lt_mul positive
  omega

theorem product_le {limit value : ℕ} (within : ¬ limit / base < value) :
    value * base ≤ limit :=
  (Nat.mul_le_mul_right base (Nat.not_lt.mp within)).trans (Nat.div_mul_le_self limit base)

/-! ## Clamping -/

/-- The number of an interval that is the closest to a number. -/
def clamp (low high x : ℤ) : ℤ := max low (min x high)

theorem clamp_of_mem {low high x : ℤ} (above : low ≤ x) (below : x ≤ high) :
    clamp low high x = x := by
  unfold clamp
  omega

theorem clamp_of_lt {low high x : ℤ} (below : x < low) :
    clamp low high x = low := by
  unfold clamp
  omega

theorem clamp_of_gt {low high x : ℤ} (nonempty : low ≤ high) (above : high < x) :
    clamp low high x = high := by
  unfold clamp
  omega

end Numerals
