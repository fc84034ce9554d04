import Mathlib.Data.List.Count
import Mathlib.Data.List.Nodup
import Mathlib.Data.List.Induction

/-!
# Histories of a stack

The operations of a stack are recorded with their elements.  A history may happen if every push
is of an element that is not in the stack, and every pop is of the element on top
(`StackOp.apply`).  Then no element is in the stack twice, and what has been pushed is what has
been popped and what is still there (`count_history`).  So between two pops of an element there
is a push of it.
-/

set_option autoImplicit false

namespace Containers

universe u

/-- An operation, and the element it puts on the stack or takes from it -/
inductive StackOp (E : Type u) where
  | push (e : E)
  | pop (e : E)
  deriving DecidableEq

variable {E : Type u} [DecidableEq E]

/-- The stack after an operation that may happen. -/
def StackOp.apply (stack : List E) : StackOp E → Option (List E)
  | .push e => if e ∈ stack then none else some (e :: stack)
  | .pop e => if stack.head? = some e then some stack.tail else none

/-- The stack after a history, from an empty one. -/
def afterHistory (ops : List (StackOp E)) : Option (List E) := ops.foldlM StackOp.apply []

theorem afterHistory_concat {ops : List (StackOp E)} {op : StackOp E} {stack : List E} :
    afterHistory (ops ++ [op]) = some stack ↔
      ∃ before, afterHistory ops = some before ∧ op.apply before = some stack := by
  rw [afterHistory, List.foldlM_append]
  simp [afterHistory, Option.bind_eq_some_iff]

theorem StackOp.apply_push_eq_some {e : E} {stack after : List E} :
    (StackOp.push e).apply stack = some after ↔ e ∉ stack ∧ after = e :: stack := by
  rw [apply, Option.ite_none_left_eq_some]
  exact and_congr_right fun _ => Option.some_inj.trans eq_comm

theorem StackOp.apply_pop_eq_some {e : E} {stack after : List E} :
    (StackOp.pop e).apply stack = some after ↔ stack = e :: after := by
  cases stack with
  | nil => simp [apply]
  | cons top rest => simp [apply, eq_comm]

/-- No element is in the stack twice. -/
theorem nodup_afterHistory {ops : List (StackOp E)} {stack : List E}
    (happens : afterHistory ops = some stack) : stack.Nodup := by
  induction ops using List.reverseRecOn generalizing stack with
  | nil =>
      cases happens
      exact List.nodup_nil
  | append_singleton ops op ih =>
      obtain ⟨before, earlier, applied⟩ := afterHistory_concat.mp happens
      cases op with
      | push e =>
          obtain ⟨new, rfl⟩ := StackOp.apply_push_eq_some.mp applied
          exact List.nodup_cons.mpr ⟨new, ih earlier⟩
      | pop e =>
          have whole := ih earlier
          rw [StackOp.apply_pop_eq_some.mp applied] at whole
          exact (List.nodup_cons.mp whole).2

/-- **Nothing is lost and nothing is popped twice**: an element has been pushed as often as it has
been popped, and once more if it is in the stack. -/
theorem count_history {ops : List (StackOp E)} {stack : List E}
    (happens : afterHistory ops = some stack) (e : E) :
    ops.count (.push e) = ops.count (.pop e) + stack.count e := by
  induction ops using List.reverseRecOn generalizing stack with
  | nil =>
      cases happens
      rfl
  | append_singleton ops op ih =>
      obtain ⟨before, earlier, applied⟩ := afterHistory_concat.mp happens
      have counted := ih earlier
      cases op with
      | push x =>
          obtain ⟨-, rfl⟩ := StackOp.apply_push_eq_some.mp applied
          by_cases same : x = e
          · subst same
            simp [List.count_append, counted, Nat.add_assoc]
          · simp [List.count_append, counted, same]
      | pop x =>
          rw [StackOp.apply_pop_eq_some.mp applied] at counted
          by_cases same : x = e
          · subst same
            simp only [List.count_append, List.count_cons_self] at counted ⊢
            simp [counted]
            omega
          · simpa [List.count_append, same] using counted

/-- The stack in the middle of a history. -/
theorem exists_afterHistory {first second : List (StackOp E)} {stack : List E}
    (happens : afterHistory (first ++ second) = some stack) :
    ∃ before, afterHistory first = some before := by
  rw [afterHistory, List.foldlM_append] at happens
  obtain ⟨before, earlier, -⟩ := Option.bind_eq_some_iff.mp happens
  exact ⟨before, earlier⟩

/-- **Between two pops of an element there is a push of it.** -/
theorem push_between_pops {first second third : List (StackOp E)} {e : E} {stack : List E}
    (happens : afterHistory (first ++ .pop e :: second ++ .pop e :: third) = some stack) :
    .push e ∈ second := by
  rw [List.append_cons _ (.pop e) third] at happens
  obtain ⟨late, afterBoth⟩ := exists_afterHistory happens
  rw [List.append_assoc] at afterBoth
  obtain ⟨early, beforeBoth⟩ := exists_afterHistory afterBoth
  have atMost : early.count e ≤ 1 := List.nodup_iff_count_le_one.mp (nodup_afterHistory beforeBoth) e
  have counted := count_history afterBoth e
  rw [List.count_append, List.count_append, count_history beforeBoth e] at counted
  by_contra none_
  have zero : second.count (.push e) = 0 := List.count_eq_zero.mpr none_
  simp [List.count_append, zero] at counted
  omega

end Containers
