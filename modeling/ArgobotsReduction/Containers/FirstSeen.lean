import Mathlib.Algebra.Group.Nat.Defs
import Mathlib.Data.List.Induction
import Mathlib.Data.List.Nodup

/-!
# Sets in first-seen order

A set may be kept in an array to which new elements are added at the end.  After some
elements have been offered, the array has them without repetitions and in first-seen
order.

The array grows by doubling.  How often it has been enlarged depends only on how many
elements it has, and so does whether one of the allocations has failed.
-/

set_option autoImplicit false

namespace Containers

universe u

variable {α : Type u} [DecidableEq α]

/-! ## Repetitions -/

theorem eraseDups_snoc_of_mem {seen : List α} {a : α} (old : a ∈ seen) :
    (seen ++ [a]).eraseDups = seen.eraseDups := by
  rw [List.eraseDups_append]
  simp [List.removeAll, old]

theorem eraseDups_snoc_of_not_mem {seen : List α} {a : α} (new : a ∉ seen) :
    (seen ++ [a]).eraseDups = seen.eraseDups ++ [a] := by
  rw [List.eraseDups_append]
  simp [List.removeAll, new, List.eraseDups_cons]

theorem nodup_eraseDups (seen : List α) : seen.eraseDups.Nodup := by
  induction seen using List.reverseRecOn with
  | nil => exact List.nodup_nil
  | append_singleton seen a ih =>
      by_cases old : a ∈ seen
      · rw [eraseDups_snoc_of_mem old]
        exact ih
      · rw [eraseDups_snoc_of_not_mem old]
        refine List.nodup_append.mpr ⟨ih, List.nodup_singleton a, fun b inSeen c last => ?_⟩
        rw [List.mem_singleton.mp last]
        rintro rfl
        exact old (List.mem_eraseDups.mp inSeen)

theorem length_eraseDups_le_append (seen more : List α) :
    seen.eraseDups.length ≤ (seen ++ more).eraseDups.length := by
  rw [List.eraseDups_append, List.length_append]
  exact Nat.le_add_right _ _

/-! ## Doubling -/

/-- One of the allocations fails that are made until the array has some elements.  Allocation `j`
is made when `first * 2 ^ j` elements no longer suffice. -/
def GrowthFails (first : ℕ) (allocates : ℕ → Bool) (elements : ℕ) : Prop :=
  ∃ j, first * 2 ^ j < elements ∧ allocates j = false

variable {first : ℕ} {allocates : ℕ → Bool}

theorem GrowthFails.mono {m n : ℕ} (fails : GrowthFails first allocates m) (le : m ≤ n) :
    GrowthFails first allocates n := by
  obtain ⟨j, few, failed⟩ := fails
  exact ⟨j, Nat.lt_of_lt_of_le few le, failed⟩

/-- No allocation has failed where all those have succeeded that were made. -/
theorem not_growthFails {elements grown : ℕ} (fits : elements ≤ first * 2 ^ grown)
    (succeeded : ∀ j < grown, allocates j = true) : ¬ GrowthFails first allocates elements := by
  rintro ⟨j, few, failed⟩
  have earlier : j < grown := by
    by_contra later
    have larger : first * 2 ^ grown ≤ first * 2 ^ j :=
      Nat.mul_le_mul_left first (Nat.pow_le_pow_right (by omega) (Nat.not_lt.mp later))
    omega
  rw [succeeded j earlier] at failed
  cases failed

end Containers
