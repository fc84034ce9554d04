import Mathlib.Data.List.Basic
import Mathlib.Logic.Function.Basic

/-!
# State machines, and callers that take turns on a shared state

An event of a machine either has one result in a state or cannot happen there.
A run is the list of its states, latest first, so that a property of a run may
speak of the moments a caller has been through.  Runs may be restricted to
events that meet a condition on the state before them.

* `Machine.invariant` — what the initial states have and every event keeps holds
  in every reachable state;
* `Machine.Run.since`, `Machine.Run.once` — a state that can only be entered through
  another property has been through that property.

In a machine of `Callers` every event is one turn of one caller: it reads and
writes the shared state, and moves the caller to another place of its code.
`Callers.invariant` is the rule of local assertions: each caller has an assertion
about its place and the shared state, its own turns establish the next one, and
they keep the assertions of the others.  Assertions may use a value that the
code does not have, and that a turn may choose anew.
-/

set_option autoImplicit false

namespace Parallel

universe u v w x

/-- A state machine. -/
structure Machine (σ : Type u) (ε : Type v) where
  init : σ → Prop
  step : σ → ε → Option σ

namespace Machine

variable {σ : Type u} {ε : Type v}

/-- The condition that every event meets. -/
def anyEvent : σ → ε → Prop := fun _ _ => True

instance (s : σ) (e : ε) : Decidable (anyEvent s e) := inferInstanceAs (Decidable True)

section Runs

variable (M : Machine σ ε)

/-- The states of a run, latest first. -/
inductive Run (allowed : σ → ε → Prop) : List σ → Prop where
  | start {s : σ} (initial : M.init s) : Run allowed [s]
  | next {s t : σ} {past : List σ} {e : ε} (before : Run allowed (s :: past)) (meets : allowed s e)
      (step : M.step s e = some t) : Run allowed (t :: s :: past)

/-- The state is the last one of some run. -/
def Reachable (allowed : σ → ε → Prop) (s : σ) : Prop := ∃ past, M.Run allowed (s :: past)

/-- The state after the events in turn, if all of them meet the condition and can
happen. -/
def play (allowed : σ → ε → Prop) [∀ s e, Decidable (allowed s e)] (s : σ) (events : List ε) :
    Option σ :=
  events.foldlM (fun s e => if allowed s e then M.step s e else none) s

end Runs

variable {M : Machine σ ε} {allowed : σ → ε → Prop}

theorem Reachable.start {s : σ} (initial : M.init s) : M.Reachable allowed s := ⟨[], .start initial⟩

theorem Reachable.next {s t : σ} {e : ε} (reachable : M.Reachable allowed s) (meets : allowed s e)
    (step : M.step s e = some t) : M.Reachable allowed t := by
  obtain ⟨past, run⟩ := reachable
  exact ⟨s :: past, run.next meets step⟩

/-- Every state of a run is reachable. -/
theorem Run.reachable {states : List σ} (run : M.Run allowed states) {s : σ} (member : s ∈ states) :
    M.Reachable allowed s := by
  induction run with
  | start initial =>
      obtain rfl := List.mem_singleton.mp member
      exact .start initial
  | @next u t past e before meets step ih =>
      rcases List.mem_cons.mp member with rfl | earlier
      · exact ⟨_, before.next meets step⟩
      · exact ih earlier

theorem Reachable.mono {more : σ → ε → Prop} (weaker : ∀ s e, allowed s e → more s e) {s : σ}
    (reachable : M.Reachable allowed s) : M.Reachable more s := by
  obtain ⟨past, run⟩ := reachable
  suffices widened : ∀ states, M.Run allowed states → M.Run more states from ⟨past, widened _ run⟩
  intro states run
  induction run with
  | start initial => exact .start initial
  | next _ meets step ih => exact ih.next (weaker _ _ meets) step

/-- **The invariant rule.** -/
theorem invariant (good : σ → Prop) (initial : ∀ s, M.init s → good s)
    (keeps : ∀ s e t, M.Reachable allowed s → allowed s e → good s → M.step s e = some t → good t)
    {s : σ} (reachable : M.Reachable allowed s) : good s := by
  obtain ⟨past, run⟩ := reachable
  suffices latest : ∀ states, M.Run allowed states → ∀ s past, states = s :: past → good s from
    latest _ run s past rfl
  intro states run
  induction run with
  | start begins =>
      rintro s past same
      obtain ⟨rfl, -⟩ := List.cons.inj same
      exact initial _ begins
  | next before meets step ih =>
      rintro t past same
      obtain ⟨rfl, -⟩ := List.cons.inj same
      exact keeps _ _ _ ⟨_, before⟩ meets (ih _ _ rfl) step

/-- The invariant rule for operations that have results, when those that meet the condition
return and keep what is good. -/
theorem invariant_of_returns {ρ : Type w} (perform : σ → ε → Option (σ × ρ)) (good : σ → Prop)
    (performs : ∀ s e, M.step s e = (perform s e).map Prod.fst)
    (initial : ∀ s, M.init s → good s)
    (returns : ∀ s e, allowed s e → good s → ∃ t result, perform s e = some (t, result) ∧ good t)
    {s : σ} (reachable : M.Reachable allowed s) : good s := by
  refine invariant good initial ?_ reachable
  intro s e t _ meets holds step
  obtain ⟨t', result, performed, after⟩ := returns s e meets holds
  rw [performs, performed] at step
  obtain rfl := Option.some.inj step
  exact after

/-- **What has been entered through a property has had it during the same stretch of the run.** -/
theorem Run.since (later once : σ → Prop) (during : σ → Bool)
    (initial : ∀ s, M.init s → later s → during s = true ∧ once s)
    (enters : ∀ s e t, M.Reachable allowed s → allowed s e → M.step s e = some t → later t →
      during t = true ∧ (later s ∨ once t)) {s : σ} {past : List σ}
    (run : M.Run allowed (s :: past)) (holds : later s) :
    ∃ t ∈ (s :: past).takeWhile during, once t := by
  suffices latest : ∀ states, M.Run allowed states → ∀ s past, states = s :: past → later s →
      ∃ t ∈ states.takeWhile during, once t from latest _ run s past rfl holds
  intro states run
  induction run with
  | start begins =>
      rintro s past same holds
      obtain ⟨rfl, -⟩ := List.cons.inj same
      obtain ⟨inside, now⟩ := initial _ begins holds
      rw [List.takeWhile_cons_of_pos inside]
      exact ⟨_, List.mem_cons_self, now⟩
  | next before meets step ih =>
      rintro t past same holds
      obtain ⟨rfl, -⟩ := List.cons.inj same
      obtain ⟨inside, entered⟩ := enters _ _ _ ⟨_, before⟩ meets step holds
      rw [List.takeWhile_cons_of_pos inside]
      rcases entered with earlier | now
      · obtain ⟨u, member, had⟩ := ih _ _ rfl earlier
        exact ⟨u, List.mem_cons_of_mem _ member, had⟩
      · exact ⟨_, List.mem_cons_self, now⟩

/-- **What has been entered through a property has had it.** -/
theorem Run.once (later once : σ → Prop) (initial : ∀ s, M.init s → later s → once s)
    (enters : ∀ s e t, M.Reachable allowed s → allowed s e → M.step s e = some t → later t →
      later s ∨ once t) {s : σ} {past : List σ} (run : M.Run allowed (s :: past))
    (holds : later s) : ∃ t ∈ s :: past, once t := by
  obtain ⟨t, member, had⟩ := run.since later once (fun _ => true)
    (fun s begins holds => ⟨rfl, initial s begins holds⟩)
    (fun s e t reachable meets step holds => ⟨rfl, enters s e t reachable meets step holds⟩) holds
  exact ⟨t, (List.takeWhile_prefix _).mem member, had⟩

/-- **The event that began the current stretch of a run.** -/
theorem Run.entry (during : σ → Prop) (initial : ∀ s, M.init s → ¬during s) {states : List σ}
    (run : M.Run allowed states) {s : σ} {past : List σ} (latest : states = s :: past)
    (inside : during s) :
    ∃ stretch entered before earlier e, states = stretch ++ entered :: before :: earlier ∧
      (∀ t ∈ stretch, during t) ∧ during entered ∧ ¬during before ∧
      M.step before e = some entered := by
  induction run generalizing s past with
  | start begins =>
      obtain ⟨rfl, -⟩ := List.cons.inj latest
      exact absurd inside (initial _ begins)
  | @next before t earlier e run meets step ih =>
      obtain ⟨rfl, rfl⟩ := List.cons.inj latest
      by_cases already : during before
      · obtain ⟨stretch, entered, previous, first, event, whole, stays, there, outside, enters⟩ :=
          ih rfl already
        refine ⟨t :: stretch, entered, previous, first, event, ?_, ?_, there, outside, enters⟩
        · rw [whole]
          rfl
        · intro u member
          rcases List.mem_cons.mp member with rfl | inStretch
          · exact inside
          · exact stays u inStretch
      · exact ⟨[], t, before, earlier, e, rfl, by simp, inside, already, step⟩

section Play

variable [∀ s e, Decidable (allowed s e)]

theorem play_cons {s t : σ} {e : ε} {events : List ε} (meets : allowed s e)
    (step : M.step s e = some t) : M.play allowed s (e :: events) = M.play allowed t events := by
  rw [play, List.foldlM_cons, if_pos meets, step]
  rfl

theorem play_append {s t : σ} {u : Option σ} {first second : List ε}
    (played : M.play allowed s first = some t) (further : M.play allowed t second = u) :
    M.play allowed s (first ++ second) = u := by
  rw [play] at played
  rw [play, List.foldlM_append, played]
  exact further

end Play

/-- A schedule that can be played from a reachable state leads to a reachable state. -/
theorem Reachable.of_play [∀ s e, Decidable (allowed s e)] {s t : σ}
    (reachable : M.Reachable allowed s) {events : List ε}
    (played : M.play allowed s events = some t) : M.Reachable allowed t := by
  induction events generalizing s with
  | nil =>
      cases played
      exact reachable
  | cons e events ih =>
      obtain ⟨next, step, rest⟩ := Option.bind_eq_some_iff.mp played
      obtain ⟨meets, step⟩ := Option.ite_none_right_eq_some.mp step
      exact ih (reachable.next meets step) rest

/-- A state with a property that a schedule leads to from an initial state. -/
theorem exists_reachable_of_play (allowed : σ → ε → Prop) [∀ s e, Decidable (allowed s e)] {s : σ}
    (initial : M.init s) (events : List ε) (property : σ → Bool)
    (played : (M.play allowed s events).any property = true) :
    ∃ t, M.Reachable allowed t ∧ property t = true := by
  obtain ⟨t, reached, holds⟩ := (Option.any_eq_true _ _).mp played
  exact ⟨t, (Reachable.start initial).of_play reached, holds⟩

end Machine

/-! ## Callers -/

/-- What a turn of a caller does to the shared state and to its place. -/
structure Callers (ι : Type u) (Shared : Type v) (Place : Type w) (Choice : Type x) where
  turn : ι → Choice → Shared → Place → Option (Shared × Place)

/-- The shared state, and the places of the callers. -/
structure World (ι : Type u) (Shared : Type v) (Place : Type w) where
  shared : Shared
  place : ι → Place

namespace Callers

variable {ι : Type u} {Shared : Type v} {Place : Type w} {Choice : Type x} [DecidableEq ι]

/-- The machine of the callers. -/
def machine (callers : Callers ι Shared Place Choice) (init : World ι Shared Place → Prop) :
    Machine (World ι Shared Place) (ι × Choice) where
  init := init
  step world event :=
    (callers.turn event.1 event.2 world.shared (world.place event.1)).map fun result =>
      ⟨result.1, Function.update world.place event.1 result.2⟩

variable {callers : Callers ι Shared Place Choice} {init : World ι Shared Place → Prop}

/-- An event of the machine is a turn of its caller. -/
theorem step_eq_some {world next : World ι Shared Place} {event : ι × Choice} :
    (callers.machine init).step world event = some next ↔
      ∃ shared place, callers.turn event.1 event.2 world.shared (world.place event.1) =
        some (shared, place) ∧ next = ⟨shared, Function.update world.place event.1 place⟩ := by
  simp only [machine, Option.map_eq_some_iff, Prod.exists, eq_comm (a := next)]

/-- **The rule of local assertions.** -/
theorem invariant {γ : Type*} {allowed : World ι Shared Place → ι × Choice → Prop}
    (good : γ → Shared → Prop) (holds : γ → ι → Shared → Place → Prop)
    (initial : ∀ world, init world →
      ∃ g, good g world.shared ∧ ∀ c, holds g c world.shared (world.place c))
    (turn : ∀ g world c choice shared place, allowed world (c, choice) → good g world.shared →
      (∀ d, holds g d world.shared (world.place d)) →
      callers.turn c choice world.shared (world.place c) = some (shared, place) →
      ∃ g', good g' shared ∧ holds g' c shared place ∧
        ∀ d, d ≠ c → ∀ other, holds g d world.shared other → holds g' d shared other)
    {world : World ι Shared Place} (reachable : (callers.machine init).Reachable allowed world) :
    ∃ g, good g world.shared ∧ ∀ c, holds g c world.shared (world.place c) := by
  refine Machine.invariant
    (fun world => ∃ g, good g world.shared ∧ ∀ c, holds g c world.shared (world.place c)) initial ?_
    reachable
  rintro world ⟨c, choice⟩ next - meets ⟨g, fine, local_⟩ step
  obtain ⟨shared, place, taken, rfl⟩ := step_eq_some.mp step
  obtain ⟨g', fine', mine, others⟩ := turn g world c choice shared place meets fine local_ taken
  refine ⟨g', fine', fun d => ?_⟩
  rcases eq_or_ne d c with rfl | different
  · simpa only [Function.update_self] using mine
  · simpa only [Function.update_of_ne different] using others d different _ (local_ d)

end Callers

end Parallel
