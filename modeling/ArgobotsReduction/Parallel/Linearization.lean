import Mathlib.Data.List.Induction
import ArgobotsReduction.Parallel.Machine

/-!
# Linearization points

An event of a machine may be the moment at which an operation takes effect on an object.  What the
machine has done is then the list of these operations, in the order of their effects
(`Machine.Effects`), and the machine is correct when that list is a history of the object.

* `Machine.Effects.linearizes` — what relates the states of the machine to those of the object,
  and is kept by every event together with its effect, relates them after every run;
* `Callers.linearizes` — the same with an assertion for every caller.
-/

set_option autoImplicit false

namespace Parallel

universe u v w x y z

variable {σ : Type u} {ε : Type v} {ω : Type w} {α : Type x}

namespace Machine

/-- The effects of a run, earliest first, and the state it leads to. -/
inductive Effects (M : Machine σ ε) (allowed : σ → ε → Prop) (effect : σ → ε → Option ω) :
    List ω → σ → Prop where
  | start {s : σ} (initial : M.init s) : Effects M allowed effect [] s
  | next {ops : List ω} {s t : σ} {e : ε} (before : Effects M allowed effect ops s)
      (meets : allowed s e) (step : M.step s e = some t) :
      Effects M allowed effect (ops ++ (effect s e).toList) t

variable {M : Machine σ ε} {allowed : σ → ε → Prop} {effect : σ → ε → Option ω}

theorem Effects.reachable {ops : List ω} {s : σ} (effects : M.Effects allowed effect ops s) :
    M.Reachable allowed s := by
  induction effects with
  | start initial => exact .start initial
  | next _ meets step ih => exact ih.next meets step

theorem Reachable.exists_effects {s : σ} (reachable : M.Reachable allowed s) :
    ∃ ops, M.Effects allowed effect ops s := by
  refine Machine.invariant (fun s => ∃ ops, M.Effects allowed effect ops s) ?_ ?_ reachable
  · intro s initial
    exact ⟨[], .start initial⟩
  · rintro s e t - meets ⟨ops, before⟩ step
    exact ⟨_, before.next meets step⟩

/-- **Every run is a history of the object.** -/
theorem Effects.linearizes {apply : α → ω → Option α} {begins : α} (related : α → σ → Prop)
    (initial : ∀ s, M.init s → related begins s)
    (keeps : ∀ a s e t, allowed s e → related a s → M.step s e = some t →
      ∃ b, (effect s e).toList.foldlM apply a = some b ∧ related b t)
    {ops : List ω} {s : σ} (effects : M.Effects allowed effect ops s) :
    ∃ a, ops.foldlM apply begins = some a ∧ related a s := by
  induction effects with
  | start first => exact ⟨begins, rfl, initial _ first⟩
  | next _ meets step ih =>
      obtain ⟨a, happened, before⟩ := ih
      obtain ⟨b, applied, after⟩ := keeps a _ _ _ meets before step
      refine ⟨b, ?_, after⟩
      rw [List.foldlM_append, happened]
      exact applied

end Machine

namespace Callers

variable {ι : Type u} {Shared : Type v} {Place : Type y} {Choice : Type z} [DecidableEq ι]
  {callers : Callers ι Shared Place Choice} {init : World ι Shared Place → Prop}

/-- The effect of a turn is an effect of the machine. -/
def effect (effect : ι → Choice → Shared → Place → Option ω) (world : World ι Shared Place)
    (event : ι × Choice) : Option ω :=
  effect event.1 event.2 world.shared (world.place event.1)

/-- **The rule of local assertions, with the state of the object as what is shared.** -/
theorem linearizes {γ : Type*} {allowed : World ι Shared Place → ι × Choice → Prop}
    {apply : α → ω → Option α} {begins : α}
    {effect : ι → Choice → Shared → Place → Option ω} (object : γ → α) (good : γ → Shared → Prop)
    (holds : γ → ι → Shared → Place → Prop)
    (initial : ∀ world, init world → ∃ g, object g = begins ∧ good g world.shared ∧
      ∀ c, holds g c world.shared (world.place c))
    (turn : ∀ g c choice shared place shared' place', good g shared → holds g c shared place →
      callers.turn c choice shared place = some (shared', place') →
      ∃ g', (effect c choice shared place).toList.foldlM apply (object g) = some (object g') ∧
        good g' shared' ∧ holds g' c shared' place' ∧
        ∀ d, d ≠ c → ∀ other, holds g d shared other → holds g' d shared' other)
    {ops : List ω} {world : World ι Shared Place}
    (effects : (callers.machine init).Effects allowed (Callers.effect effect) ops world) :
    ∃ g, ops.foldlM apply begins = some (object g) ∧ good g world.shared ∧
      ∀ c, holds g c world.shared (world.place c) := by
  let related : α → World ι Shared Place → Prop := fun a world =>
    ∃ g, object g = a ∧ good g world.shared ∧ ∀ c, holds g c world.shared (world.place c)
  have keeps : ∀ a world event next, allowed world event → related a world →
      (callers.machine init).step world event = some next →
      ∃ b, (Callers.effect effect world event).toList.foldlM apply a = some b ∧
        related b next := by
    rintro a world ⟨c, choice⟩ next - ⟨g, rfl, fine, places⟩ step
    obtain ⟨shared, place, taken, rfl⟩ := step_eq_some.mp step
    obtain ⟨g', applied, fine', mine, others⟩ := turn g c choice _ _ _ _ fine (places c) taken
    refine ⟨object g', applied, g', rfl, fine', fun d => ?_⟩
    rcases eq_or_ne d c with rfl | different
    · simpa only [Function.update_self] using mine
    · simpa only [Function.update_of_ne different] using others d different _ (places d)
  obtain ⟨a, happened, g, rfl, fine, places⟩ := effects.linearizes related initial keeps
  exact ⟨g, happened, fine, places⟩

end Callers

end Parallel
