import Mathlib.Algebra.Order.Group.Nat
import Mathlib.Data.List.Range
import Mathlib.Data.Nat.Find
import Mathlib.Order.Monotone.Basic
import Mathlib.Tactic.Linarith

/-!
# Tilings of an index range

An index range `[0, total)` is cut into consecutive parts at monotone cut
points.  The parts have no gap and no overlap: laid one after the other they
are the range (`Tiling.flatMap_part`), and every index lies in exactly one part
(`Tiling.existsUnique_part`).

Two ways of cutting are given: equal parts with the remainder added to the last
(`Tiling.lastTakesRest`), and parts of the rounded-up length, the last ones
possibly short or empty (`Tiling.roundedUp`).
-/

set_option autoImplicit false

namespace Parallel

/-- Cut points of a range of `total` indices into `parts` parts. -/
structure Tiling (parts total : ℕ) where
  cut : ℕ → ℕ
  monotone : Monotone cut
  first : cut 0 = 0
  last : cut parts = total

namespace Tiling

variable {parts total : ℕ} (tiling : Tiling parts total)

/-- The indices of a part, in order. -/
def part (i : ℕ) : List ℕ := List.range' (tiling.cut i) (tiling.cut (i + 1) - tiling.cut i)

theorem mem_part {i j : ℕ} : j ∈ tiling.part i ↔ tiling.cut i ≤ j ∧ j < tiling.cut (i + 1) := by
  have ordered := tiling.monotone (Nat.le_succ i)
  simp only [part, List.mem_range'_1]
  omega

theorem cut_le_total {i : ℕ} (within : i ≤ parts) : tiling.cut i ≤ total :=
  (tiling.monotone within).trans_eq tiling.last

/-- The range up to the next cut is longer by a part. -/
theorem range_cut_succ (n : ℕ) :
    List.range (tiling.cut (n + 1)) = List.range (tiling.cut n) ++ tiling.part n := by
  have ordered := tiling.monotone (Nat.le_succ n)
  have joined : List.range' 0 (tiling.cut n) ++
      List.range' (0 + tiling.cut n) (tiling.cut (n + 1) - tiling.cut n) =
        List.range' 0 (tiling.cut n + (tiling.cut (n + 1) - tiling.cut n)) :=
    List.range'_append_1
  rw [Nat.zero_add, Nat.add_sub_cancel' ordered] at joined
  rw [part, List.range_eq_range', List.range_eq_range', joined]

/-- The first parts, one after the other, are the range up to their last cut. -/
theorem flatMap_part_upto (n : ℕ) :
    ((List.range n).flatMap tiling.part) = List.range (tiling.cut n) := by
  induction n with
  | zero => simp [tiling.first]
  | succ n ih =>
      rw [List.range_succ, List.flatMap_append, ih, List.flatMap_cons, List.flatMap_nil,
        List.append_nil, range_cut_succ]

/-- **No gap and no overlap, in order**: the parts laid one after the other are
the range. -/
theorem flatMap_part : ((List.range parts).flatMap tiling.part) = List.range total := by
  rw [flatMap_part_upto, tiling.last]

/-- Two parts with a common index are one part. -/
theorem part_inj {i k j : ℕ} (inFirst : j ∈ tiling.part i) (inSecond : j ∈ tiling.part k) :
    i = k := by
  rw [mem_part] at inFirst inSecond
  rcases lt_trichotomy i k with before | same | after
  · have ordered := tiling.monotone (Nat.succ_le_of_lt before)
    simp only [Nat.succ_eq_add_one] at ordered
    omega
  · exact same
  · have ordered := tiling.monotone (Nat.succ_le_of_lt after)
    simp only [Nat.succ_eq_add_one] at ordered
    omega

/-- **Every index lies in exactly one part.** -/
theorem existsUnique_part {j : ℕ} (within : j < total) :
    ∃! i, i < parts ∧ j ∈ tiling.part i := by
  have covered : j ∈ (List.range parts).flatMap tiling.part := by
    rw [flatMap_part]
    exact List.mem_range.mpr within
  obtain ⟨i, member, inside⟩ := List.mem_flatMap.mp covered
  exact ⟨i, ⟨List.mem_range.mp member, inside⟩, fun k other =>
    tiling.part_inj other.2 inside⟩

/-! ## Two ways of cutting -/

/-- Parts of the rounded-down length, the last one taking the rest. -/
def lastTakesRest (parts total : ℕ) (nonempty : 0 < parts) : Tiling parts total where
  cut i := if i < parts then i * (total / parts) else total
  monotone := by
    intro i k ordered
    have fits : ∀ i, i < parts → i * (total / parts) ≤ total := fun i below =>
      (Nat.mul_le_mul_right _ below.le).trans (Nat.mul_div_le total parts)
    by_cases second : k < parts
    · simp only [if_pos second, if_pos (ordered.trans_lt second)]
      exact Nat.mul_le_mul_right _ ordered
    · by_cases first : i < parts
      · simpa only [if_pos first, if_neg second] using fits i first
      · simp only [if_neg first, if_neg second, le_refl]
  first := by simp [nonempty]
  last := by simp

/-- Parts of the rounded-up length, the last ones possibly short or empty. -/
def roundedUp (parts total : ℕ) (nonempty : 0 < parts) : Tiling parts total where
  cut i := min (i * ((total + parts - 1) / parts)) total
  monotone := fun i k ordered => min_le_min_right _ (Nat.mul_le_mul_right _ ordered)
  first := by simp
  last := by
    have bound : total + parts - 1 < (total + parts - 1) / parts * parts + parts :=
      Nat.lt_div_mul_add nonempty
    have product : parts * ((total + parts - 1) / parts) =
        (total + parts - 1) / parts * parts := Nat.mul_comm _ _
    omega

end Tiling

end Parallel
