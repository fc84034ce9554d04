import ArgobotsReduction.Sync.StackDump

/-!
# Runs of the stack-dump rendezvous

In every run there is a phase that agrees with the shared variables and with the places
of all callers, and the properties of the rendezvous are read off that phase.
-/

set_option autoImplicit false

namespace ArgobotsReduction.Sync.StackDump

open Parallel

universe u v

variable {Pointer : Type u} {N : ℕ} {Trigger : Type v}

/-- The stream has entered the round, and has not left it. -/
def StreamPlace.inside : StreamPlace → Bool
  | outside | entering | resetting => false
  | _ => true

/-- The stream prints the stacks and calls the callback. -/
def StreamPlace.Dumping : StreamPlace → Prop
  | printing _ | unlocking _ | calling _ | finalizing => True
  | _ => False

/-- The request whose arguments the trigger saves. -/
def TriggerPlace.saves : TriggerPlace Pointer → Option (Request Pointer)
  | savingFp r | savingTimeout r | savingCbFunc r | savingArg r => some r
  | _ => none

section Runs

variable {world : World (Fin N ⊕ Trigger) (State Pointer) (Place Pointer)}

/-- The stream is inside. -/
def Inside (world : World (Fin N ⊕ Trigger) (State Pointer) (Place Pointer)) (c : Fin N) : Prop :=
  ∃ place, world.place (.inl c) = .stream place ∧ place.inside = true

theorem CallerAt.of_reachable [DecidableEq Trigger]
    (reachable : (rendezvous N Trigger Pointer).Reachable NoTimeout world) :
    ∃ phase, Global phase world.shared ∧
      ∀ caller, CallerAt phase caller world.shared (world.place caller) := by
  refine Callers.invariant Global CallerAt ?_ ?_ reachable
  · intro world begins
    refine ⟨.idle, ⟨begins.flag, by simpa [Phase.inside] using begins.barrier, trivial, ?_, ?_,
      ?_, ?_⟩, ?_⟩
    · simp [begins.accepted]
    · rintro ⟨⟩
    · simp [begins.dumps]
    · simp [begins.calls]
    · rintro (c | t)
      · rw [begins.streams c]
        refine ⟨c, rfl, Finset.notMem_empty c, ?_⟩
        rintro ⟨⟩
      · rw [begins.triggers t]
        refine ⟨t, rfl, ?_⟩
        rintro ⟨⟩
  · intro phase world caller choice shared place negative fine known taken
    have mine : Fine phase caller world.shared shared place := by
      have knows := known caller
      cases here : world.place caller with
      | stream place =>
          rw [here] at knows taken
          obtain ⟨c, rfl, knows⟩ := knows
          obtain ⟨⟨next, place'⟩, inner, same⟩ := Option.map_eq_some_iff.mp taken
          cases same
          exact knows.turn fine inner
      | trigger place =>
          rw [here] at knows taken
          obtain ⟨t, rfl, knows⟩ := knows
          obtain ⟨⟨next, place'⟩, inner, same⟩ := Option.map_eq_some_iff.mp taken
          cases same
          exact knows.turn fine negative inner
    obtain ⟨phase', step, fine', mine, kept⟩ := mine
    exact ⟨phase', fine', mine, fun d other _ knows => knows.next step other.symm kept⟩

/-- The rendezvous is safe in a state. -/
structure Safe (world : World (Fin N ⊕ Trigger) (State Pointer) (Place Pointer)) : Prop where
  empty : world.shared.printStackFlag = .unset ∨ world.shared.printStackFlag = .initializing →
    world.shared.printStackBarrier = 0 ∧ ∀ c, ¬Inside world c
  triggerAssertion : ∀ t r, world.place (.inr t) = .trigger (.asserting r) →
    world.shared.printStackBarrier = 0
  streamAssertion : ∀ c, world.place (.inl c) = .stream .asserting →
    world.shared.printStackFlag = .finalize
  dumps : world.shared.dumps.Sublist (world.shared.accepted.map fun r => (r, false))
  calls : world.shared.calls.Sublist (world.shared.accepted.map fun r => (r, false))
  together : ∀ c place, world.place (.inl c) = .stream place → place.Dumping →
    world.shared.printStackFlag = .wait ∧
      ∀ d, d ≠ c → world.place (.inl d) = .stream .spinning
  saver : ∀ t place r, world.place (.inr t) = .trigger place → place.saves = some r →
    world.shared.printStackFlag = .initializing ∧ world.shared.accepted.head? = some r
  saved : world.shared.printStackFlag = .wait →
    world.shared.accepted.head? = some world.shared.saved
  resetting : world.shared.printStackFlag = .finalize →
    ((∀ c, ¬Inside world c) ↔ ∃ c, world.place (.inl c) = .stream .resetting)

/-- A turn keeps the saved arguments until the dump has ended, and resets the flag when the last
stream has left. -/
structure Kept (world next : World (Fin N ⊕ Trigger) (State Pointer) (Place Pointer))
    (caller : Fin N ⊕ Trigger) : Prop where
  saved : next.shared.saved ≠ world.shared.saved → ∃ t place r, caller = .inr t ∧
    world.place (.inr t) = .trigger place ∧ place.saves = some r
  reset : world.shared.printStackFlag ≠ .unset → next.shared.printStackFlag = .unset →
    ∃ c, caller = .inl c ∧ world.place (.inl c) = .stream .resetting ∧
      ∀ d, ¬Inside world d ∧ (d ≠ c → world.place (.inl d) = .stream .outside)

theorem StreamAt.inside {phase : Phase N Trigger} {c : Fin N} {place : StreamPlace}
    (formed : phase.Formed) (known : StreamAt phase c place) :
    place.inside = true ↔ c ∈ phase.inside := by
  cases place with
  | outside | entering => exact iff_of_false nofun known.1
  | resetting =>
      obtain rfl : phase = .left c := known
      exact iff_of_false nofun (Finset.notMem_empty c)
  | acquiring | checking | releasing =>
      obtain ⟨inside, rfl⟩ := known
      exact iff_of_true rfl formed
  | printing | unlocking | calling =>
      obtain ⟨rfl, -⟩ := known
      exact iff_of_true rfl (Finset.mem_univ c)
  | finalizing =>
      obtain rfl : phase = .called c := known
      exact iff_of_true rfl (Finset.mem_univ c)
  | spinning => exact iff_of_true rfl known.1
  | asserting | leaving =>
      obtain ⟨inside, rfl, member⟩ := known
      exact iff_of_true rfl member

/-- The streams that are inside are those of the phase. -/
theorem inside_iff {phase : Phase N Trigger} (fine : Global phase world.shared)
    (known : ∀ caller, CallerAt phase caller world.shared (world.place caller)) {c : Fin N} :
    Inside world c ↔ c ∈ phase.inside := by
  have knows := known (.inl c)
  cases here : world.place (.inl c) with
  | stream place =>
      rw [here] at knows
      obtain ⟨_, ⟨⟩, knows⟩ := knows
      rw [← knows.inside fine.formed, Inside, here]
      constructor
      · rintro ⟨_, ⟨⟩, inside⟩
        exact inside
      · exact fun inside => ⟨place, rfl, inside⟩
  | trigger place =>
      rw [here] at knows
      obtain ⟨_, ⟨⟩, -⟩ := knows

/-- What a stream knows at its place, and a trigger. -/
theorem CallerAt.stream {phase : Phase N Trigger} {c : Fin N} {place : StreamPlace}
    (known : ∀ caller, CallerAt phase caller world.shared (world.place caller))
    (here : world.place (.inl c) = .stream place) : StreamAt phase c place := by
  have knows := known (.inl c)
  rw [here] at knows
  obtain ⟨_, ⟨⟩, knows⟩ := knows
  exact knows

theorem CallerAt.trigger {phase : Phase N Trigger} {t : Trigger} {place : TriggerPlace Pointer}
    (known : ∀ caller, CallerAt phase caller world.shared (world.place caller))
    (here : world.place (.inr t) = .trigger place) : TriggerAt phase t world.shared place := by
  have knows := known (.inr t)
  rw [here] at knows
  obtain ⟨_, ⟨⟩, knows⟩ := knows
  exact knows

/-- A stream is at one of its places. -/
theorem CallerAt.exists_stream {phase : Phase N Trigger} (c : Fin N)
    (known : ∀ caller, CallerAt phase caller world.shared (world.place caller)) :
    ∃ place, world.place (.inl c) = .stream place := by
  have knows := known (.inl c)
  cases here : world.place (.inl c) with
  | stream place => exact ⟨place, rfl⟩
  | trigger place =>
      rw [here] at knows
      obtain ⟨_, ⟨⟩, -⟩ := knows

/-- While a stream dumps, the phase is that of a main stream with all streams inside. -/
theorem StreamAt.dumping {phase : Phase N Trigger} {c : Fin N} {place : StreamPlace}
    (known : StreamAt phase c place) (dumping : place.Dumping) :
    phase.flag = .wait ∧ phase.inside = Finset.univ ∧ phase.main = some c := by
  cases place with
  | printing =>
      obtain ⟨rfl, -⟩ := known
      exact ⟨rfl, rfl, rfl⟩
  | unlocking | calling =>
      obtain ⟨rfl, -⟩ := known
      exact ⟨rfl, rfl, rfl⟩
  | finalizing =>
      obtain rfl : phase = .called c := known
      exact ⟨rfl, rfl, rfl⟩
  | outside | entering | acquiring | checking | releasing | spinning | asserting | leaving
  | resetting => exact dumping.elim

/-- A stream that is inside with another main stream spins until the flag is final. -/
theorem StreamAt.spinning {phase : Phase N Trigger} {c : Fin N} {place : StreamPlace}
    (known : StreamAt phase c place) (waits : phase.flag = .wait) (member : c ∈ phase.inside)
    (other : phase.main ≠ some c) : place = .spinning := by
  cases place with
  | spinning => rfl
  | outside | entering => exact absurd member known.1
  | acquiring | checking | releasing =>
      obtain ⟨inside, rfl⟩ := known
      exact absurd rfl other
  | printing | unlocking | calling =>
      obtain ⟨rfl, -⟩ := known
      exact absurd rfl other
  | finalizing =>
      obtain rfl : phase = .called c := known
      exact absurd rfl other
  | asserting | leaving =>
      obtain ⟨inside, rfl, -⟩ := known
      cases waits
  | resetting =>
      obtain rfl : phase = .left c := known
      cases waits

theorem TriggerAt.saver {phase : Phase N Trigger} {t : Trigger} {s : State Pointer}
    {place : TriggerPlace Pointer} {r : Request Pointer} (known : TriggerAt phase t s place)
    (saves : place.saves = some r) : Accepted phase t s r := by
  cases place with
  | savingFp =>
      cases saves
      exact known
  | savingTimeout | savingCbFunc | savingArg =>
      cases saves
      exact known.1
  | outside | loading | swapping | asserting | announcing => cases saves

/-- In the final phases, the last stream that has left resets the flag. -/
theorem Global.resetting {phase : Phase N Trigger} (fine : Global phase world.shared)
    (known : ∀ caller, CallerAt phase caller world.shared (world.place caller))
    (final : phase.flag = .finalize) :
    (∀ c, ¬Inside world c) ↔ ∃ c, world.place (.inl c) = .stream .resetting := by
  simp only [inside_iff fine known]
  cases phase with
  | leaving inside =>
      obtain ⟨c, member⟩ := fine.formed
      refine iff_of_false (fun nobody => nobody c member) ?_
      rintro ⟨d, here⟩
      cases (CallerAt.stream known here : Phase.leaving inside = .left d)
  | left last =>
      refine iff_of_true (fun c => Finset.notMem_empty c) ⟨last, ?_⟩
      obtain ⟨place, here⟩ := CallerAt.exists_stream last known
      have knows := CallerAt.stream known here
      rw [here]
      cases place with
      | resetting => rfl
      | outside => exact absurd rfl knows.2
      | entering => cases knows.2
      | spinning => exact absurd knows.1 (Finset.notMem_empty last)
      | acquiring | checking | releasing => obtain ⟨inside, ⟨⟩⟩ := knows
      | printing | unlocking | calling => cases knows.1
      | finalizing => cases knows
      | asserting | leaving => obtain ⟨inside, ⟨⟩, -⟩ := knows
  | idle | saving | announced | gathering | printed | called => cases final

theorem Safe.of_phase {phase : Phase N Trigger} (fine : Global phase world.shared)
    (known : ∀ caller, CallerAt phase caller world.shared (world.place caller)) : Safe world where
  empty early := by
    have nobody : phase.inside = ∅ := by
      rw [fine.flag] at early
      cases phase with
      | idle | saving | announced | left => rfl
      | gathering | printed | called | leaving =>
          rcases early with early | early
          · cases early
          · cases early
    refine ⟨by rw [fine.barrier, nobody, Finset.card_empty, Nat.cast_zero], fun c => ?_⟩
    rw [inside_iff fine known, nobody]
    exact Finset.notMem_empty c
  triggerAssertion t r here := by
    obtain ⟨⟨rfl, -⟩, -⟩ := CallerAt.trigger known here
    exact fine.barrier
  streamAssertion c here := by
    obtain ⟨inside, rfl, -⟩ := CallerAt.stream known here
    exact fine.flag
  dumps := by
    refine fine.dumps.trans (List.Sublist.map _ ?_)
    cases phase with
    | saving | announced | gathering => exact List.tail_sublist _
    | idle | printed | called | leaving | left => exact List.Sublist.refl _
  calls := by
    refine fine.calls.trans (List.Sublist.map _ ?_)
    cases phase with
    | saving | announced | gathering | printed => exact List.tail_sublist _
    | idle | called | leaving | left => exact List.Sublist.refl _
  together c place here dumping := by
    obtain ⟨waits, everyone, main⟩ := (CallerAt.stream known here).dumping dumping
    refine ⟨fine.flag.trans waits, fun d other => ?_⟩
    obtain ⟨place', there⟩ := CallerAt.exists_stream d known
    rw [there, (CallerAt.stream known there).spinning waits (everyone ▸ Finset.mem_univ d) ?_]
    rw [main]
    exact fun same => other (Option.some.inj same).symm
  saver t place r here saves := by
    obtain ⟨rfl, latest⟩ := (CallerAt.trigger known here).saver saves
    exact ⟨fine.flag, latest⟩
  saved waits := fine.saved (fine.flag.symm.trans waits)
  resetting final := fine.resetting known (fine.flag.symm.trans final)

/-- A turn of a stream saves no arguments, and resets the flag only at the end. -/
theorem streamTurn_kept {elapsed : ℚ} {s s' : State Pointer} {place place' : StreamPlace}
    (taken : streamTurn N elapsed s place = some (s', place')) :
    s'.saved = s.saved ∧ (s.printStackFlag ≠ .unset → s'.printStackFlag = .unset →
      place = .resetting) := by
  cases place with
  | outside | entering | checking | releasing | printing | unlocking | calling | spinning
  | leaving =>
      cases taken
      exact ⟨rfl, fun before after => absurd after before⟩
  | acquiring =>
      obtain ⟨-, taken⟩ := Option.ite_none_left_eq_some.mp taken
      cases taken
      exact ⟨rfl, fun before after => absurd after before⟩
  | asserting =>
      obtain ⟨-, taken⟩ := Option.ite_none_right_eq_some.mp taken
      cases taken
      exact ⟨rfl, fun before after => absurd after before⟩
  | finalizing =>
      cases taken
      exact ⟨rfl, nofun⟩
  | resetting =>
      cases taken
      exact ⟨rfl, fun _ _ => rfl⟩

/-- A turn of a trigger saves the arguments of its own request, and does not reset the flag. -/
theorem triggerTurn_kept {request : Request Pointer} {s s' : State Pointer}
    {place place' : TriggerPlace Pointer}
    (taken : triggerTurn request s place = some (s', place')) :
    (s'.saved ≠ s.saved → ∃ r, place.saves = some r) ∧
      (s'.printStackFlag = .unset → s.printStackFlag = .unset) := by
  cases place with
  | outside | loading =>
      cases taken
      exact ⟨fun changed => absurd rfl changed, id⟩
  | swapping r =>
      rw [triggerTurn] at taken
      split at taken
      · cases taken
        refine ⟨fun changed => absurd rfl changed, ?_⟩
        rintro ⟨⟩
      · cases taken
        exact ⟨fun changed => absurd rfl changed, id⟩
  | savingFp r | savingTimeout r | savingCbFunc r | savingArg r =>
      cases taken
      exact ⟨fun _ => ⟨r, rfl⟩, id⟩
  | asserting r =>
      obtain ⟨-, taken⟩ := Option.ite_none_right_eq_some.mp taken
      cases taken
      exact ⟨fun changed => absurd rfl changed, id⟩
  | announcing r =>
      cases taken
      refine ⟨fun changed => absurd rfl changed, ?_⟩
      rintro ⟨⟩

/-- When a stream resets the flag, all others are outside. -/
theorem StreamAt.alone {c d : Fin N} {place : StreamPlace}
    (known : StreamAt (Phase.left c : Phase N Trigger) d place) (other : d ≠ c) :
    place = .outside := by
  cases place with
  | outside => rfl
  | entering => cases known.2
  | spinning => exact absurd known.1 (Finset.notMem_empty d)
  | acquiring | checking | releasing => obtain ⟨inside, ⟨⟩⟩ := known
  | printing | unlocking | calling => cases known.1
  | finalizing => cases known
  | asserting | leaving => obtain ⟨inside, ⟨⟩, -⟩ := known
  | resetting =>
      cases known
      exact absurd rfl other

theorem Kept.of_step [DecidableEq Trigger] {phase : Phase N Trigger}
    (fine : Global phase world.shared)
    (known : ∀ caller, CallerAt phase caller world.shared (world.place caller))
    {event : (Fin N ⊕ Trigger) × Choice Pointer}
    {next : World (Fin N ⊕ Trigger) (State Pointer) (Place Pointer)}
    (step : (rendezvous N Trigger Pointer).step world event = some next) :
    Kept world next event.1 := by
  obtain ⟨caller, choice⟩ := event
  obtain ⟨shared, place, taken, rfl⟩ := Callers.step_eq_some.mp step
  have knows := known caller
  cases here : world.place caller with
  | stream place =>
      rw [here] at knows
      change (callers N Trigger Pointer).turn caller choice _ (world.place caller) = _ at taken
      rw [here] at taken
      obtain ⟨c, rfl, knows⟩ := knows
      obtain ⟨⟨next, place'⟩, inner, same⟩ := Option.map_eq_some_iff.mp taken
      cases same
      obtain ⟨saved, resets⟩ := streamTurn_kept inner
      refine ⟨fun changed => absurd saved changed, fun before after => ?_⟩
      obtain rfl := resets before after
      obtain rfl : phase = .left c := knows
      refine ⟨c, rfl, here, fun d => ⟨?_, fun other => ?_⟩⟩
      · rw [inside_iff fine known]
        exact Finset.notMem_empty d
      · obtain ⟨place, there⟩ := CallerAt.exists_stream d known
        rw [there, (CallerAt.stream known there).alone other]
  | trigger place =>
      rw [here] at knows
      change (callers N Trigger Pointer).turn caller choice _ (world.place caller) = _ at taken
      rw [here] at taken
      obtain ⟨t, rfl, -⟩ := knows
      obtain ⟨⟨next, place'⟩, inner, same⟩ := Option.map_eq_some_iff.mp taken
      cases same
      obtain ⟨saves, resets⟩ := triggerTurn_kept inner
      refine ⟨fun changed => ?_, fun before after => absurd (resets after) before⟩
      obtain ⟨r, saves⟩ := saves changed
      exact ⟨t, place, r, rfl, here, saves⟩

end Runs

/-- **The stack-dump rendezvous is safe.** -/
theorem stackDump_safe {N : ℕ} {Trigger : Type v} [DecidableEq Trigger] {Pointer : Type u}
    {world : World (Fin N ⊕ Trigger) (State Pointer) (Place Pointer)}
    (reachable : (rendezvous N Trigger Pointer).Reachable NoTimeout world) :
    Safe world ∧ ∀ event next, (rendezvous N Trigger Pointer).step world event = some next →
      Kept world next event.1 := by
  obtain ⟨phase, fine, known⟩ := CallerAt.of_reachable reachable
  exact ⟨.of_phase fine known, fun event next step => .of_step fine known step⟩

def nobodyInside : World (Fin 2 ⊕ Unit) (State ℕ) (Place ℕ) where
  shared := ⟨.unset, ⟨0, 0, none, 0⟩, 0, false, [], [], []⟩
  place
    | .inl _ => .stream .outside
    | .inr _ => .trigger .outside

def untilCallback (first second : Fin 2) : List (Fin 2 ⊕ Unit) :=
  List.replicate 9 (.inr ()) ++ [.inl first, .inl first, .inl second, .inl second] ++
    List.replicate 4 (.inl first)

/-- A trigger is accepted, and the first of two streams has printed the stacks and calls the
callback, while the second one spins. -/
theorem stackDump_safe_two : ∃ world : World (Fin 2 ⊕ Unit) (State ℕ) (Place ℕ), Safe world ∧
    world.place (.inl 0) = .stream (.calling false) ∧ world.place (.inl 1) = .stream .spinning := by
  obtain ⟨world, reachable, places⟩ := Machine.exists_reachable_of_play NoTimeout
    (M := rendezvous 2 Unit ℕ) (s := nobodyInside)
    ⟨rfl, rfl, rfl, rfl, rfl, fun _ => rfl, fun _ => rfl⟩
    ((untilCallback 0 1).map fun caller => (caller, ⟨0, ⟨1, -1, some 2, 3⟩⟩))
    (fun world => world.place (.inl 0) = .stream (.calling false) ∧
      world.place (.inl 1) = .stream .spinning) (by decide +kernel)
  exact ⟨world, (stackDump_safe reachable).1, of_decide_eq_true places⟩

end ArgobotsReduction.Sync.StackDump
