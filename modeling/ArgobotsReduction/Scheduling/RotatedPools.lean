import Mathlib.Algebra.Order.Group.Nat
import Mathlib.Data.Fintype.EquivFin

/-!
# The pool lists of the schedulers

Both `ABT_create_ws_scheds` and its cost-aware variant give scheduler `i` the
global array of pools rotated by `i`: its pool `k` is the global pool
`(i + k) % num`.  A rotated list starts at the scheduler's own pool and holds
every pool once.  Its index of a pool is the pool's global index only for
scheduler 0.
-/

set_option autoImplicit false

namespace ArgobotsReduction.Scheduling

variable {num : ℕ}

/-- `sched_pools[k]` of scheduler `i`, as an index of the global array. -/
def schedPools (i k : Fin num) : Fin num :=
  ⟨(i + k) % num, Nat.mod_lt _ (Nat.zero_lt_of_lt i.isLt)⟩

/-- The first pool of a scheduler is its own. -/
theorem schedPools_zero (i : Fin num) (nonempty : 0 < num) : schedPools i ⟨0, nonempty⟩ = i :=
  Fin.ext (Nat.mod_eq_of_lt i.isLt)

theorem schedPools_val (i k : Fin num) :
    (schedPools i k).val = if i.val + k < num then i.val + k else i.val + k - num := by
  have first := i.isLt
  have second := k.isLt
  change (i.val + k) % num = _
  split
  · exact Nat.mod_eq_of_lt ‹_›
  · rw [Nat.mod_eq_sub_mod (by omega), Nat.mod_eq_of_lt (by omega)]

theorem schedPools_injective (i : Fin num) : Function.Injective (schedPools i) := by
  intro j k same
  have equal := congrArg Fin.val same
  have first := j.isLt
  have second := k.isLt
  rw [schedPools_val, schedPools_val] at equal
  refine Fin.ext ?_
  split_ifs at equal <;> omega

/-- A rotated list holds every pool once. -/
theorem schedPools_bijective (i : Fin num) : Function.Bijective (schedPools i) :=
  Finite.injective_iff_bijective.mp (schedPools_injective i)

/-- An index means the same pool globally and in a rotated list only for
scheduler 0. -/
theorem schedPools_eq_self_iff (i k : Fin num) : schedPools i k = k ↔ i.val = 0 := by
  have first := i.isLt
  have second := k.isLt
  rw [Fin.ext_iff, schedPools_val]
  split_ifs <;> omega

end ArgobotsReduction.Scheduling
