import Mathlib.Algebra.Group.Nat.Defs
import Mathlib.Data.Nat.Log
import Mathlib.Order.Bounds.Basic

/-!
# Rounding

Argobots rounds sizes up to a multiple and to a power of two.  The functions for the two
types of sizes differ in the width of the type only, and all they do is modulo that width.
A multiple that is a power of two is rounded to by clearing bits, and the next power of
two is looked for with shifts.  As long as the result fits in the type it is the least
multiple (`roundup_isLeast`) or power of two (`roundupPow2_isLeast`) that is not smaller.
-/

set_option autoImplicit false

namespace ArgobotsReduction.Utilities

/-- A value that is stored in a type of some bits, without a sign -/
def asBits (bits n : ℕ) : ℕ := n % 2 ^ bits

/-- `n - 1` in a type of some bits -/
def decrement (bits n : ℕ) : ℕ := asBits bits (n + (2 ^ bits - 1))

/-- `~n` in a type of some bits -/
def complement (bits n : ℕ) : ℕ := 2 ^ bits - 1 - n

/-- `ABTU_roundup_uint32` and `ABTU_roundup_size` -/
def roundup (bits val multiple : ℕ) : ℕ :=
  if multiple &&& decrement bits multiple = 0 then
    decrement bits (val + multiple) &&& complement bits (decrement bits multiple)
  else asBits bits (decrement bits (val + multiple) / multiple * multiple)

/-- The loop of `roundup_pow2_uint32` and `roundup_pow2_size` -/
def roundupPow2Loop (bits val i : ℕ) : ℕ :=
  if i < bits - 1 then
    if (val - 1) >>> i = 0 then i else roundupPow2Loop bits val (i + 1)
  else i
termination_by bits - 1 - i

/-- `roundup_pow2_uint32` and `roundup_pow2_size` -/
def roundupPow2 (bits val : ℕ) : ℕ :=
  if val = 0 then 0 else asBits bits (1 <<< roundupPow2Loop bits val 0)

variable {bits val n c : ℕ}

theorem asBits_lt (bits n : ℕ) : asBits bits n < 2 ^ bits := Nat.mod_lt _ (Nat.two_pow_pos bits)

theorem asBits_of_lt (less : n < 2 ^ bits) : asBits bits n = n := Nat.mod_eq_of_lt less

theorem decrement_of_pos (positive : 0 < n) (fits : n ≤ 2 ^ bits) : decrement bits n = n - 1 := by
  have split : n + (2 ^ bits - 1) = n - 1 + 2 ^ bits := by omega
  rw [decrement, asBits, split, Nat.add_mod_right]
  exact Nat.mod_eq_of_lt (by omega)

/-! ## Multiples -/

/-- The lower bits of a power of two are set below it. -/
theorem two_pow_and_pred (c : ℕ) : 2 ^ c &&& (2 ^ c - 1) = 0 := by
  rw [Nat.and_two_pow_sub_one_eq_mod, Nat.mod_self]

/-- Clearing the lower bits. -/
theorem and_complement (less : n < 2 ^ bits) (below : c ≤ bits) :
    n &&& complement bits (2 ^ c - 1) = n / 2 ^ c * 2 ^ c := by
  have positive := Nat.two_pow_pos c
  have atMost : 2 ^ c ≤ 2 ^ bits := Nat.pow_le_pow_right Nat.two_pos below
  have mask : complement bits (2 ^ c - 1) = 2 ^ bits - (2 ^ c - 1 + 1) := by
    rw [complement]
    omega
  rw [mask]
  apply Nat.eq_of_testBit_eq
  intro i
  rw [Nat.testBit_and, Nat.testBit_two_pow_sub_succ (by omega), Nat.testBit_two_pow_sub_one,
    Nat.testBit_mul_two_pow]
  rcases Nat.lt_or_ge i c with lower | upper
  · simp [lower, Nat.not_le.mpr lower]
  · rw [Nat.testBit_div_two_pow, Nat.sub_add_cancel upper]
    rcases Nat.lt_or_ge i bits with inside | outside
    · simp [inside, upper, Nat.not_lt.mpr upper]
    · have unset : n.testBit i = false :=
        Nat.testBit_lt_two_pow (Nat.lt_of_lt_of_le less
          (Nat.pow_le_pow_right Nat.two_pos outside))
      simp [unset]

theorem roundup_two_pow (below : c < bits) (fits : val + 2 ^ c ≤ 2 ^ bits) :
    roundup bits val (2 ^ c) = (val + 2 ^ c - 1) / 2 ^ c * 2 ^ c := by
  have positive := Nat.two_pow_pos c
  have atMost : 2 ^ c ≤ 2 ^ bits := Nat.pow_le_pow_right Nat.two_pos below.le
  rw [roundup, decrement_of_pos positive atMost, two_pow_and_pred, if_pos rfl,
    decrement_of_pos (by omega) fits]
  exact and_complement (by omega) below.le

/-- **Rounding up gives the least multiple that is not smaller.** -/
theorem roundup_isLeast (below : c < bits) (fits : val + 2 ^ c ≤ 2 ^ bits) :
    IsLeast {m | 2 ^ c ∣ m ∧ val ≤ m} (roundup bits val (2 ^ c)) := by
  have positive := Nat.two_pow_pos c
  rw [roundup_two_pow below fits]
  refine ⟨⟨Nat.dvd_mul_left _ _, ?_⟩, ?_⟩
  · have remains := Nat.div_add_mod (val + 2 ^ c - 1) (2 ^ c)
    have less := Nat.mod_lt (val + 2 ^ c - 1) positive
    rw [Nat.mul_comm] at remains
    omega
  · rintro m ⟨⟨k, rfl⟩, atLeast⟩
    rw [Nat.mul_comm (2 ^ c) k]
    refine Nat.mul_le_mul_right _ (Nat.le_of_lt_succ ?_)
    rw [Nat.div_lt_iff_lt_mul positive, Nat.succ_mul]
    rw [Nat.mul_comm] at atLeast
    omega

theorem dvd_roundup (below : c < bits) (fits : val + 2 ^ c ≤ 2 ^ bits) :
    2 ^ c ∣ roundup bits val (2 ^ c) := (roundup_isLeast below fits).1.1

theorem le_roundup (below : c < bits) (fits : val + 2 ^ c ≤ 2 ^ bits) :
    val ≤ roundup bits val (2 ^ c) := (roundup_isLeast below fits).1.2

theorem roundup_le {m : ℕ} (below : c < bits) (fits : val + 2 ^ c ≤ 2 ^ bits) (multiple : 2 ^ c ∣ m)
    (atLeast : val ≤ m) : roundup bits val (2 ^ c) ≤ m :=
  (roundup_isLeast below fits).2 ⟨multiple, atLeast⟩

theorem roundup_lt (below : c < bits) (fits : val + 2 ^ c ≤ 2 ^ bits) :
    roundup bits val (2 ^ c) < val + 2 ^ c := by
  have positive := Nat.two_pow_pos c
  rw [roundup_two_pow below fits]
  have atMost := Nat.div_mul_le_self (val + 2 ^ c - 1) (2 ^ c)
  omega

/-- Sizes stay below the end of their type. -/
theorem roundup_lt_two_pow (bits val multiple : ℕ) : roundup bits val multiple < 2 ^ bits := by
  rw [roundup]
  split_ifs with power
  · exact Nat.lt_of_le_of_lt Nat.and_le_left (asBits_lt ..)
  · exact asBits_lt ..

/-- What is added to a multiple counts in whole multiples only. -/
theorem isLeast_le_add_iff {multiple m x r : ℕ} (least : IsLeast {m | multiple ∣ m ∧ val ≤ m} m)
    (whole : multiple ∣ x) : m ≤ x + r ↔ val ≤ x + r / multiple * multiple := by
  obtain ⟨⟨divides, atLeast⟩, first⟩ := least
  have below := Nat.div_mul_le_self r multiple
  constructor
  · intro most
    have parts : (m - x) / multiple * multiple ≤ r / multiple * multiple :=
      Nat.mul_le_mul_right _ (Nat.div_le_div_right (by omega))
    rw [Nat.div_mul_cancel (Nat.dvd_sub divides whole)] at parts
    omega
  · intro small
    have next := first ⟨Nat.dvd_add whole (Nat.dvd_mul_left ..), small⟩
    omega

/-! ## Powers of two -/

/-- Nothing is left above the shift. -/
theorem shiftRight_eq_zero_iff {i : ℕ} (positive : 0 < val) :
    (val - 1) >>> i = 0 ↔ Nat.clog 2 val ≤ i := by
  rw [Nat.shiftRight_eq_div_pow, Nat.div_eq_zero_iff, Nat.clog_le_iff_le_pow Nat.one_lt_two]
  have power := Nat.two_pow_pos i
  omega

theorem roundupPow2Loop_eq (positive : 0 < val) (i : ℕ) (started : i ≤ Nat.clog 2 val)
    (fits : Nat.clog 2 val ≤ bits - 1) : roundupPow2Loop bits val i = Nat.clog 2 val := by
  fun_induction roundupPow2Loop bits val i with
  | case1 i inside found =>
      exact Nat.le_antisymm started ((shiftRight_eq_zero_iff positive).mp found)
  | case2 i inside more ih =>
      rw [shiftRight_eq_zero_iff positive] at more
      exact ih (by omega)
  | case3 i outside => omega

/-- **Rounding up to a power of two.** -/
theorem roundupPow2_eq (positive : 0 < val) (fits : val ≤ 2 ^ (bits - 1)) (some : 0 < bits) :
    roundupPow2 bits val = 2 ^ Nat.clog 2 val := by
  have few : Nat.clog 2 val ≤ bits - 1 := (Nat.clog_le_iff_le_pow Nat.one_lt_two).mpr fits
  rw [roundupPow2, if_neg positive.ne', roundupPow2Loop_eq positive 0 (Nat.zero_le _) few,
    Nat.one_shiftLeft]
  exact asBits_of_lt (Nat.pow_lt_pow_right Nat.one_lt_two (by omega))

theorem roundupPow2_isLeast (positive : 0 < val) (fits : val ≤ 2 ^ (bits - 1)) (some : 0 < bits) :
    IsLeast {m | (∃ k, m = 2 ^ k) ∧ val ≤ m} (roundupPow2 bits val) := by
  rw [roundupPow2_eq positive fits some]
  refine ⟨⟨⟨_, rfl⟩, Nat.le_pow_clog Nat.one_lt_two val⟩, ?_⟩
  rintro m ⟨⟨k, rfl⟩, atLeast⟩
  exact Nat.pow_le_pow_right Nat.two_pos ((Nat.clog_le_iff_le_pow Nat.one_lt_two).mpr atLeast)

end ArgobotsReduction.Utilities
