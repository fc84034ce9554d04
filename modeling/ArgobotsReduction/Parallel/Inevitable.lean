import Mathlib.Order.Basic
import ArgobotsReduction.Parallel.Machine

/-!
# What happens on every run

Some events of a machine are steps of the parties that are not idle, and the others come from
outside, or may never come.  A goal is inevitable when every run of the former reaches it, and
none of them stops before (`Machine.Inevitable`).

`Machine.inevitable` is the rule: as long as the goal is not reached, some such event can happen,
and every one that does lowers a rank.
-/

set_option autoImplicit false

namespace Parallel

universe u v

variable {σ : Type u} {ε : Type v}

namespace Machine

/-- Every run of such events reaches the goal. -/
inductive Inevitable (M : Machine σ ε) (goes : ε → Prop) (goal : σ → Prop) : σ → Prop where
  | now {s : σ} (reached : goal s) : Inevitable M goes goal s
  | later {s : σ} (enabled : ∃ e t, goes e ∧ M.step s e = some t)
      (every : ∀ e t, goes e → M.step s e = some t → Inevitable M goes goal t) :
      Inevitable M goes goal s

variable {M : Machine σ ε} {goes : ε → Prop} {goal : σ → Prop}

/-- **The rank rule**, for states that have an invariant of these events. -/
theorem inevitable (good : σ → Prop) (rank : σ → ℕ)
    (keeps : ∀ s e t, good s → goes e → M.step s e = some t → good t)
    (lowers : ∀ s e t, good s → ¬goal s → goes e → M.step s e = some t → rank t < rank s)
    (enabled : ∀ s, good s → ¬goal s → ∃ e t, goes e ∧ M.step s e = some t) {s : σ}
    (holds : good s) : M.Inevitable goes goal s := by
  induction h : rank s using Nat.strongRecOn generalizing s with
  | ind n ih =>
      by_cases reached : goal s
      · exact .now reached
      · refine .later (enabled s holds reached) fun e t event step => ?_
        have lower := lowers s e t holds reached event step
        exact ih (rank t) (h ▸ lower) (keeps s e t holds event step) rfl

end Machine

end Parallel
