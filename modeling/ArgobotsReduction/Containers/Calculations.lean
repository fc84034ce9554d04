import Mathlib.Data.List.Basic

/-!
# Calculations that store numbers

A calculation stores numbers, one after another, and goes on with what has been kept of each
(`Calculation`).  The same calculation runs on a machine, which keeps what fits in its types,
and with exact numbers, which keeps everything.

As long as every number is kept as it is, the two runs do the same.  So a run on a machine is
exact if and only if all the numbers of the exact run fit (`exact_iff_stored`).

`Ensures` is about the results of exact runs.  Its rules follow the calculation, and a number that
has been stored is known to be exact afterwards (`Ensures.store`).
-/

set_option autoImplicit false

namespace Containers

universe u

/-- A calculation that stores numbers. -/
inductive Calculation (ρ : Type u) (α : Type u) where
  | done (result : α)
  | store (number : ρ) (next : ρ → Calculation ρ α)

namespace Calculation

variable {ρ α β σ : Type u}

def bind : Calculation ρ α → (α → Calculation ρ β) → Calculation ρ β
  | done a, f => f a
  | store number next, f => store number fun kept => (next kept).bind f

instance : Monad (Calculation ρ) where
  pure := done
  bind := bind

/-- The result, where `keep` says what is kept of a number. -/
def run (keep : ρ → ρ) : Calculation ρ α → α
  | done a => a
  | store number next => (next (keep number)).run keep

/-- The numbers of a run, before they are stored -/
def stored (keep : ρ → ρ) : Calculation ρ α → List ρ
  | done _ => []
  | store number next => number :: (next (keep number)).stored keep

/-- Every number of the run is kept as it is. -/
def Exact (keep : ρ → ρ) (c : Calculation ρ α) : Prop := ∀ x ∈ c.stored keep, keep x = x

variable {keep : ρ → ρ}

section Runs

@[simp] theorem run_pure (a : α) : (pure a : Calculation ρ α).run keep = a := rfl

@[simp] theorem run_bind (c : Calculation ρ α) (f : α → Calculation ρ β) :
    (c >>= f).run keep = (f (c.run keep)).run keep := by
  induction c with
  | done a => rfl
  | store number next ih => exact ih (keep number)

@[simp] theorem stored_bind (c : Calculation ρ α) (f : α → Calculation ρ β) :
    (c >>= f).stored keep = c.stored keep ++ (f (c.run keep)).stored keep := by
  induction c with
  | done a => rfl
  | store number next ih => exact congrArg (List.cons number) (ih (keep number))

/-- A loop whose turns are calculations -/
theorem run_foldlM (body : σ → α → Calculation ρ σ) (items : List α) (s : σ) :
    (items.foldlM body s).run keep = items.foldl (fun s a => (body s a).run keep) s := by
  induction items generalizing s with
  | nil => rfl
  | cons a items ih =>
      rw [List.foldlM_cons, run_bind]
      exact ih _

end Runs

/-! ## Exact runs -/

theorem exact_store {number : ρ} {next : ρ → Calculation ρ α} :
    Exact keep (store number next) ↔ keep number = number ∧ Exact keep (next number) := by
  rw [Exact, stored, List.forall_mem_cons]
  constructor
  · rintro ⟨same, others⟩
    rw [same] at others
    exact ⟨same, others⟩
  · rintro ⟨same, others⟩
    refine ⟨same, ?_⟩
    rw [same]
    exact others

theorem exact_bind {c : Calculation ρ α} {f : α → Calculation ρ β} :
    Exact keep (c >>= f) ↔ Exact keep c ∧ Exact keep (f (c.run keep)) := by
  rw [Exact, stored_bind, List.forall_mem_append]
  rfl

/-- A loop is exact when its turns are, where the state does not matter for that. -/
theorem exact_foldlM {body : σ → α → Calculation ρ σ} {condition : α → Prop}
    (turn : ∀ s a, Exact keep (body s a) ↔ condition a) (items : List α) (s : σ) :
    Exact keep (items.foldlM body s) ↔ ∀ a ∈ items, condition a := by
  induction items generalizing s with
  | nil => exact iff_of_true nofun nofun
  | cons a items ih =>
      rw [List.foldlM_cons, exact_bind, turn, ih, List.forall_mem_cons]

/-- **A run is exact exactly when the numbers of the exact run are kept.** -/
theorem exact_iff_stored (c : Calculation ρ α) : Exact keep c ↔ ∀ x ∈ c.stored id, keep x = x := by
  induction c with
  | done a => exact Iff.rfl
  | store number next ih =>
      rw [exact_store, ih number, stored, List.forall_mem_cons]
      rfl

/-! ## Results of exact runs -/

/-- The result of an exact run is as the postcondition says. -/
def Ensures (keep : ρ → ρ) (c : Calculation ρ α) (post : α → Prop) : Prop :=
  Exact keep c → post (c.run keep)

variable {post : α → Prop}

theorem Ensures.pure {a : α} (holds : post a) :
    Ensures keep (Pure.pure a : Calculation ρ α) post := fun _ => holds

/-- A number that is stored is exact. -/
theorem Ensures.store {number : ρ} {next : ρ → Calculation ρ α}
    (after : keep number = number → Ensures keep (next number) post) :
    Ensures keep (store number next) post := by
  intro exact
  obtain ⟨same, others⟩ := exact_store.mp exact
  rw [run, same]
  exact after same others

theorem Ensures.bind {c : Calculation ρ α} {f : α → Calculation ρ β} {mid : α → Prop}
    {last : β → Prop} (first : Ensures keep c mid) (rest : ∀ a, mid a → Ensures keep (f a) last) :
    Ensures keep (c >>= f) last := by
  intro exact
  obtain ⟨before, after⟩ := exact_bind.mp exact
  rw [run_bind]
  exact rest _ (first before) after

theorem Ensures.mono {c : Calculation ρ α} {weaker : α → Prop} (ensures : Ensures keep c post)
    (implies : ∀ a, post a → weaker a) : Ensures keep c weaker :=
  fun exact => implies _ (ensures exact)

end Calculation

end Containers
