import Mathlib.Algebra.Order.Group.Multiset
import Mathlib.Data.Multiset.Range
import Mathlib.Tactic.Abel

/-!
# Objects that are created and freed

Objects are named in the order of their creation, and every free is recorded.  Between two
moments, some objects have been created and not freed again: they are owed (`Owes`).  Code that
may fail half way through has to free what it owes, in whatever order, and nothing else.

* `Owes.create`, `Owes.free` — what is owed after a creation and after a free;
* `Owes.trans` — what is owed after one piece of code and another;
* `Owes.count_freed` — who owes nothing has freed every object of its own once, and no other.
-/

set_option autoImplicit false

namespace Containers

/-- The name of the next object, and the objects that have been freed, as often as they have. -/
structure Objects where
  next : ℕ
  freed : Multiset ℕ

namespace Objects

/-- The objects after the next one is created. -/
def create (objects : Objects) : Objects := { objects with next := objects.next + 1 }

def free (objects : Objects) (object : ℕ) : Objects :=
  { objects with freed := object ::ₘ objects.freed }

/-- **What is owed**: of the objects that have been created since `before`, these have not been
freed, and each of the others has been freed once. -/
structure Owes (before after : Objects) (owed : Multiset ℕ) : Prop where
  le : before.next ≤ after.next
  balance : after.freed + owed + Multiset.range before.next =
    before.freed + Multiset.range after.next

variable {before after later : Objects} {owed more : Multiset ℕ} {object : ℕ}

theorem Owes.refl (objects : Objects) : Owes objects objects 0 :=
  ⟨Nat.le_refl _, by rw [add_zero]⟩

theorem Owes.create (owes : Owes before after owed) :
    Owes before after.create (after.next ::ₘ owed) where
  le := Nat.le_succ_of_le owes.le
  balance := by
    calc
      after.freed + (after.next ::ₘ owed) + Multiset.range before.next
        = {after.next} + (after.freed + owed + Multiset.range before.next) := by
          rw [← Multiset.singleton_add]
          abel
      _ = {after.next} + (before.freed + Multiset.range after.next) := by rw [owes.balance]
      _ = before.freed + Multiset.range (after.next + 1) := by
          rw [Multiset.range_succ, ← Multiset.singleton_add]
          abel

theorem Owes.free (owes : Owes before after (object ::ₘ owed)) :
    Owes before (after.free object) owed where
  le := owes.le
  balance := by
    rw [Objects.free, Multiset.cons_add, ← Multiset.add_cons]
    exact owes.balance

theorem Owes.trans (first : Owes before after owed) (second : Owes after later more) :
    Owes before later (owed + more) where
  le := Nat.le_trans first.le second.le
  balance := by
    refine add_right_cancel (b := Multiset.range after.next) ?_
    calc
      later.freed + (owed + more) + Multiset.range before.next + Multiset.range after.next
        = (later.freed + more + Multiset.range after.next) + owed +
            Multiset.range before.next := by abel
      _ = (after.freed + owed + Multiset.range before.next) + Multiset.range later.next := by
          rw [second.balance]
          abel
      _ = before.freed + Multiset.range later.next + Multiset.range after.next := by
          rw [first.balance]
          abel

/-- **Who owes nothing has freed every object of its own once, and no other.** -/
theorem Owes.count_freed (owes : Owes before after 0) (object : ℕ) :
    after.freed.count object = before.freed.count object +
      if before.next ≤ object ∧ object < after.next then 1 else 0 := by
  have counted := congrArg (Multiset.count object) owes.balance
  have counts : ∀ bound, (Multiset.range bound).count object = if object < bound then 1 else 0 := by
    intro bound
    by_cases below : object < bound
    · rw [if_pos below]
      exact Multiset.count_eq_one_of_mem (Multiset.nodup_range bound) (Multiset.mem_range.mpr below)
    · rw [if_neg below]
      exact Multiset.count_eq_zero_of_notMem fun member => below (Multiset.mem_range.mp member)
  have le := owes.le
  rw [add_zero, Multiset.count_add, Multiset.count_add, counts, counts] at counted
  split_ifs at counted ⊢ <;> omega

end Objects

end Containers
