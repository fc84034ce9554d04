import ArgobotsReduction.Parallel.Machine

/-!
# Observers of calls

What a model records beside the state of the code is written by the turns of the code, and so
it says no more about the calls than these turns do.  An observer stands outside.  It sees a
call when a caller leaves an idle place and a return when a caller comes to an idle place,
and it may look at the shared state before and after a turn.  No turn reads or writes what it
has recorded.

* `Callers.Observed` — the record of an observer in a run to a state;
* `Callers.exists_observed` — every run can be observed;
* `Callers.Observed.holds` — the rule of local assertions for a caller and its record;
* `Tally` — an observer that counts the calls and the returns of a caller, and
  `Tally.eq_add` — the rule for the calls that the code has counted.
-/

set_option autoImplicit false

namespace Parallel

universe u v w x y

/-- What is recorded of a caller: a call with its choice, a turn, and the return from a
place. -/
structure Observer (Shared : Type v) (Place : Type w) (Choice : Type x) (Record : Type y) where
  idle : Place → Bool
  called : Choice → Record → Record
  sees : Shared → Shared → Record → Record
  returned : Place → Record → Record

namespace Observer

variable {Shared : Type v} {Place : Type w} {Choice : Type x} {Record : Type y}

/-- The record after a turn. -/
def watch (observer : Observer Shared Place Choice Record) (choice : Choice) (s : Shared)
    (place : Place) (s' : Shared) (place' : Place) (record : Record) : Record :=
  let called := if observer.idle place then observer.called choice record else record
  let seen := observer.sees s s' called
  if observer.idle place' then observer.returned place seen else seen

variable {observer : Observer Shared Place Choice Record} {choice : Choice} {s s' : Shared}
  {place place' : Place} {record : Record}

/-- A call begins. -/
theorem watch_call (before : observer.idle place = true) (after : observer.idle place' = false) :
    observer.watch choice s place s' place' record =
      observer.sees s s' (observer.called choice record) := by
  simp [watch, before, after]

/-- A turn within a call. -/
theorem watch_inside (before : observer.idle place = false)
    (after : observer.idle place' = false) :
    observer.watch choice s place s' place' record = observer.sees s s' record := by
  simp [watch, before, after]

/-- A call returns. -/
theorem watch_return (before : observer.idle place = false) (after : observer.idle place' = true) :
    observer.watch choice s place s' place' record =
      observer.returned place (observer.sees s s' record) := by
  simp [watch, before, after]

end Observer

namespace Callers

variable {ι : Type u} {Shared : Type v} {Place : Type w} {Choice : Type x} {Record : Type y}
  [DecidableEq ι]

/-- The machine of the callers with the records of an observer. -/
def observed (callers : Callers ι Shared Place Choice) (init : World ι Shared Place → Prop)
    (observer : Observer Shared Place Choice Record) (start : Record) :
    Machine (World ι Shared Place × (ι → Record)) (ι × Choice) where
  init s := init s.1 ∧ ∀ c, s.2 c = start
  step s event := ((callers.machine init).step s.1 event).map fun next =>
    (next, Function.update s.2 event.1 (observer.watch event.2 s.1.shared (s.1.place event.1)
      next.shared (next.place event.1) (s.2 event.1)))

/-- What has been recorded in some run to a state. -/
def Observed (callers : Callers ι Shared Place Choice) (init : World ι Shared Place → Prop)
    (observer : Observer Shared Place Choice Record) (start : Record)
    (world : World ι Shared Place) (records : ι → Record) : Prop :=
  (callers.observed init observer start).Reachable Machine.anyEvent (world, records)

variable {callers : Callers ι Shared Place Choice} {init : World ι Shared Place → Prop}
  {observer : Observer Shared Place Choice Record} {start : Record}
  {world : World ι Shared Place} {records : ι → Record}

/-- An observed event is a turn of its caller. -/
theorem observed_step {s next : World ι Shared Place × (ι → Record)} {event : ι × Choice}
    (step : (callers.observed init observer start).step s event = some next) :
    ∃ shared place, callers.turn event.1 event.2 s.1.shared (s.1.place event.1) =
        some (shared, place) ∧
      (callers.machine init).step s.1 event = some next.1 ∧
        next = (⟨shared, Function.update s.1.place event.1 place⟩,
          Function.update s.2 event.1 (observer.watch event.2 s.1.shared (s.1.place event.1)
            shared place (s.2 event.1))) := by
  obtain ⟨world, moved, rfl⟩ := Option.map_eq_some_iff.mp step
  obtain ⟨shared, place, taken, rfl⟩ := step_eq_some.mp moved
  exact ⟨shared, place, taken, moved, by simp only [Function.update_self]⟩

/-- The observer changes nothing. -/
theorem Observed.reachable (seen : Observed callers init observer start world records) :
    (callers.machine init).Reachable Machine.anyEvent world := by
  refine Machine.invariant (M := callers.observed init observer start)
    (fun s => (callers.machine init).Reachable Machine.anyEvent s.1)
    (fun s begins => .start begins.1) ?_ seen
  intro s event next _ _ before step
  obtain ⟨-, -, -, moved, -⟩ := observed_step step
  exact before.next trivial moved

/-- **Every run can be observed.** -/
theorem exists_observed (observer : Observer Shared Place Choice Record) (start : Record)
    (reachable : (callers.machine init).Reachable Machine.anyEvent world) :
    ∃ records, Observed callers init observer start world records := by
  refine Machine.invariant
    (fun world => ∃ records, Observed callers init observer start world records)
    (fun world begins => ⟨fun _ => start, .start ⟨begins, fun _ => rfl⟩⟩) ?_ reachable
  rintro world event next - - ⟨records, seen⟩ step
  exact ⟨_, seen.next (e := event) trivial (Option.map_eq_some_iff.mpr ⟨next, step, rfl⟩)⟩

/-- **The rule of local assertions for a caller and its record.** -/
theorem Observed.holds (good : ι → Shared → Record → Place → Prop)
    (initial : ∀ world, init world → ∀ c, good c world.shared start (world.place c))
    (own : ∀ world c choice shared place record,
      (callers.machine init).Reachable Machine.anyEvent world →
      callers.turn c choice world.shared (world.place c) = some (shared, place) →
      good c world.shared record (world.place c) →
      good c shared (observer.watch choice world.shared (world.place c) shared place record) place)
    (others : ∀ world c choice shared place d record, d ≠ c →
      (callers.machine init).Reachable Machine.anyEvent world →
      callers.turn c choice world.shared (world.place c) = some (shared, place) →
      good d world.shared record (world.place d) → good d shared record (world.place d))
    (seen : Observed callers init observer start world records) (c : ι) :
    good c world.shared (records c) (world.place c) := by
  suffices all : ∀ c, good c world.shared (records c) (world.place c) from all c
  refine Machine.invariant (M := callers.observed init observer start)
    (fun s => ∀ c, good c s.1.shared (s.2 c) (s.1.place c)) ?_ ?_ seen
  · rintro s ⟨begins, starts⟩ c
    rw [starts c]
    exact initial s.1 begins c
  · rintro s ⟨d, choice⟩ next before - holds step c
    obtain ⟨shared, place, taken, -, rfl⟩ := observed_step step
    have reachable : (callers.machine init).Reachable Machine.anyEvent s.1 :=
      Observed.reachable before
    rcases eq_or_ne c d with rfl | different
    · simpa only [Function.update_self] using own s.1 c choice shared place _ reachable taken
        (holds c)
    · simpa only [Function.update_of_ne different] using others s.1 d choice shared place c _
        different reachable taken (holds c)

end Callers

/-! ## Calls and returns -/

/-- How often a caller has called, and how often it has returned. -/
structure Tally where
  invoked : ℕ
  returned : ℕ

namespace Tally

variable {ι : Type u} {Shared : Type v} {Place : Type w} {Choice : Type x}

/-- A caller that has not called yet. -/
def zero : Tally := ⟨0, 0⟩

/-- The observer that counts. -/
def observer (idle : Place → Bool) : Observer Shared Place Choice Tally where
  idle := idle
  called _ tally := { tally with invoked := tally.invoked + 1 }
  sees _ _ tally := tally
  returned _ tally := { tally with returned := tally.returned + 1 }

variable {callers : Callers ι Shared Place Choice} {init : World ι Shared Place → Prop}
  {idle : Place → Bool} {world : World ι Shared Place} {tallies : ι → Tally} [DecidableEq ι]

omit [DecidableEq ι] in
theorem invoked_watch (choice : Choice) (s s' : Shared) (place place' : Place) (tally : Tally) :
    ((observer idle).watch choice s place s' place' tally).invoked =
      tally.invoked + if idle place then 1 else 0 := by
  cases before : idle place <;> cases after : idle place' <;>
    simp [Observer.watch, observer, before, after]

omit [DecidableEq ι] in
theorem returned_watch (choice : Choice) (s s' : Shared) (place place' : Place) (tally : Tally) :
    ((observer idle).watch choice s place s' place' tally).returned =
      tally.returned + if idle place' then 1 else 0 := by
  cases before : idle place <;> cases after : idle place' <;>
    simp [Observer.watch, observer, before, after]

/-- **A caller that is not idle has one call that has not returned.** -/
theorem invoked_eq (begins : ∀ world, init world → ∀ c, idle (world.place c) = true)
    (seen : callers.Observed init (observer idle) zero world tallies) (c : ι) :
    (tallies c).invoked = (tallies c).returned + if idle (world.place c) then 0 else 1 := by
  refine seen.holds (fun _ _ tally place => tally.invoked = tally.returned + if idle place then 0
    else 1) (fun world initial c => ?_) ?_ ?_ c
  · rw [begins world initial c]
    rfl
  · intro world c choice shared place tally _ _ balanced
    rw [invoked_watch, returned_watch, balanced]
    split_ifs <;> omega
  · exact fun _ _ _ _ _ _ _ _ _ _ balanced => balanced

/-- **The calls that the code has counted** are those that have returned, and the one that is due
at a place. -/
theorem eq_add (count : ι → Shared → ℕ) (due : Place → ℕ)
    (initial : ∀ world, init world → ∀ c, count c world.shared = 0 ∧ due (world.place c) = 0)
    (own : ∀ c choice s place s' place', callers.turn c choice s place = some (s', place') →
      count c s' + due place = count c s + due place' + if idle place' then 1 else 0)
    (others : ∀ c choice s place s' place' d, d ≠ c →
      callers.turn c choice s place = some (s', place') → count d s' = count d s)
    (seen : callers.Observed init (observer idle) zero world tallies) (c : ι) :
    count c world.shared = (tallies c).returned + due (world.place c) := by
  refine seen.holds (fun c s tally place => count c s = tally.returned + due place)
    (fun world begins c => ?_) ?_ ?_ c
  · obtain ⟨none, notDue⟩ := initial world begins c
    rw [none, notDue]
    rfl
  · intro world c choice shared place tally _ taken counted
    have step := own c choice _ _ _ _ taken
    rw [returned_watch]
    omega
  · intro world c choice shared place d tally different _ taken counted
    rw [others c choice _ _ _ _ d different taken]
    exact counted

end Tally

end Parallel
