import Mathlib.Algebra.Group.Nat.Defs
import ArgobotsReduction.Parallel.Arrivals
import ArgobotsReduction.Parallel.Observers

/-!
# The barrier of execution streams

`ABT_xstream_barrier_wait`, in the build without pthread barriers, is a sense-reversal
barrier whose sense is a number.  A caller counts itself in the critical section.  The
last one of a round resets the counter and increments the tag, and the others read the
tag before they leave the critical section and spin until they read another one.

The critical section is one turn, and so is each load of the tag outside it.  The tag
has 63 bits, so that the rounds that end are counted up to that many.

An observer counts the calls and the returns.  With more than one waiter every wait that has
returned has been counted (`Tallied`); a barrier of one waiter is passed without a count.
-/

set_option autoImplicit false

namespace ArgobotsReduction.Sync.XstreamBarrier

open Parallel

universe u

/-- `ABTI_xstream_barrier`, and the record of the arrivals. -/
structure State (ι : Type u) where
  counter : ℕ
  tag : ℕ
  record : Arrivals ι

/-- The places of `ABT_xstream_barrier_wait`. -/
inductive Place where
  | outside
  | arriving
  | spinning (curTag : ℕ)
  deriving DecidableEq

/-- `ABT_xstream_barrier_create` -/
def create (ι : Type u) (numWaiters : ℕ) : Option (State ι) :=
  if numWaiters ≠ 0 then some { counter := 0, tag := 0, record := .none } else none

/-- `UINT64_MAX >> 1` -/
def tagMask : ℕ := (2 ^ 64 - 1) >>> 1

variable {ι : Type u} [DecidableEq ι]

/-- The critical section. -/
def critical (numWaiters : ℕ) (c : ι) (s : State ι) : State ι × Place :=
  if s.counter + 1 = numWaiters then
    ({ counter := 0, tag := (s.tag + 1) &&& tagMask, record := s.record.arrive c }, .outside)
  else
    ({ s with counter := s.counter + 1, record := s.record.arrive c }, .spinning s.tag)

/-- A turn in `ABT_xstream_barrier_wait`. -/
def turn (numWaiters : ℕ) (c : ι) (s : State ι) : Place → State ι × Place
  | .outside => (s, if 1 < numWaiters then .arriving else .outside)
  | .arriving => critical numWaiters c s
  | .spinning curTag => (s, if curTag = s.tag then .spinning curTag else .outside)

/-- Calls of `ABT_xstream_barrier_wait`, again and again. -/
def calls (ι : Type u) [DecidableEq ι] (numWaiters : ℕ) : Callers ι (State ι) Place Unit where
  turn c _ s place := some (turn numWaiters c s place)

/-- A barrier that has been created, and that nobody has called yet. -/
def Begins (numWaiters : ℕ) (world : World ι (State ι) Place) : Prop :=
  create ι numWaiters = some world.shared ∧ ∀ c, world.place c = .outside

/-- The barriers with their callers. -/
def barriers (ι : Type u) [DecidableEq ι] (numWaiters : ℕ) :
    Machine (World ι (State ι) Place) (ι × Unit) :=
  (calls ι numWaiters).machine (Begins numWaiters)

/-! ## Assertions -/

/-- The counter and the tag agree with the arrivals. -/
structure Global (N : ℕ) (s : State ι) : Prop where
  counter : s.counter = s.record.count % N
  tag : s.tag = s.record.count / N % 2 ^ 63

/-- What a caller knows at its place. -/
def PlaceAt (N : ℕ) (c : ι) (s : State ι) : Place → Prop
  | .outside | .arriving => s.record.Complete N c
  | .spinning curTag => 0 < s.record.calls c ∧
      s.record.number c / N ≤ s.record.count / N ∧ curTag = s.record.number c / N % 2 ^ 63

variable {N : ℕ} {c d : ι} {s : State ι}

theorem and_tagMask (tag : ℕ) : tag &&& tagMask = tag % 2 ^ 63 := by
  have mask : tagMask = 2 ^ 63 - 1 := by decide
  rw [mask, Nat.and_two_pow_sub_one_eq_mod]

omit [DecidableEq ι] in
/-- The tag that the last waiter stores. -/
theorem Global.next (fine : Global N s) (last : s.counter + 1 = N) :
    (s.tag + 1) &&& tagMask = (s.record.count + 1) / N % 2 ^ 63 := by
  rw [and_tagMask, fine.tag, Nat.mod_add_mod, (div_succ_of_eq fine.counter.symm last).1]

theorem Global.critical (positive : 0 < N) (fine : Global N s) :
    Global N (critical N c s).1 := by
  have below : s.counter < N := fine.counter ▸ Nat.mod_lt _ positive
  rw [XstreamBarrier.critical]
  split
  next last => exact ⟨(div_succ_of_eq fine.counter.symm last).2.symm, fine.next last⟩
  next more =>
    obtain ⟨same, remainder⟩ :=
      div_succ_of_lt fine.counter.symm (lt_of_le_of_ne below more)
    refine ⟨remainder.symm, ?_⟩
    rw [Arrivals.count_arrive, same, fine.tag]

/-- What the caller knows when it leaves the critical section. -/
theorem PlaceAt.critical (positive : 0 < N) (fine : Global N s) :
    PlaceAt N c (XstreamBarrier.critical N c s).1 (XstreamBarrier.critical N c s).2 := by
  have below : s.counter < N := fine.counter ▸ Nat.mod_lt _ positive
  rw [XstreamBarrier.critical]
  split
  next last => exact Arrivals.complete_arrive_self (fine.counter ▸ last)
  next more =>
    have current : (s.record.arrive c).Current N c :=
      Arrivals.current_arrive_self (fine.counter ▸ lt_of_le_of_ne below more)
    refine ⟨current.1, current.2.le, ?_⟩
    rw [fine.tag, Arrivals.number_arrive_self]

/-- An arrival of another caller changes nothing that a caller knows. -/
theorem PlaceAt.arrive {place : Place} {t : State ι} (known : PlaceAt N d s place) (other : d ≠ c)
    (arrived : t.record = s.record.arrive c) : PlaceAt N d t place := by
  cases place with
  | outside | arriving =>
      rw [PlaceAt, arrived]
      exact Arrivals.Complete.arrive_of_ne known other
  | spinning curTag =>
      obtain ⟨called, reached, same⟩ := known
      rw [PlaceAt, arrived, Arrivals.calls_arrive_of_ne other, Arrivals.number_arrive_of_ne other]
      exact ⟨called, reached.trans (Nat.div_le_div_right (Nat.le_succ _)), same⟩

theorem record_critical : (XstreamBarrier.critical N c s).1.record = s.record.arrive c := by
  rw [XstreamBarrier.critical]
  split <;> rfl

/-- The record after a turn. -/
theorem record_turn (place : Place) :
    (turn N c s place).1.record =
      if place = .arriving then s.record.arrive c else s.record := by
  cases place with
  | outside | spinning => rfl
  | arriving => exact record_critical

/-- **Every turn keeps the assertions.** -/
theorem PlaceAt.turn (positive : 0 < N) (fine : Global N s) {place : Place}
    (known : PlaceAt N c s place) :
    Global N (turn N c s place).1 ∧
      PlaceAt N c (XstreamBarrier.turn N c s place).1 (XstreamBarrier.turn N c s place).2 := by
  cases place with
  | outside =>
      refine ⟨fine, ?_⟩
      rw [XstreamBarrier.turn]
      split
      · exact known
      · exact known
  | arriving => exact ⟨fine.critical positive, .critical positive fine⟩
  | spinning curTag =>
      refine ⟨fine, ?_⟩
      rw [XstreamBarrier.turn]
      split
      next => exact known
      next changed =>
        -- The tags differ, and so do the rounds they count.
        obtain ⟨-, reached, same⟩ := known
        refine .inr (lt_of_le_of_ne reached fun round => changed ?_)
        rw [same, round, fine.tag]

/-! ## Runs -/

section Runs

variable {world : World ι (State ι) Place} {past : List (World ι (State ι) Place)}

theorem PlaceAt.of_reachable (reachable : (barriers ι N).Reachable Machine.anyEvent world) :
    0 < N ∧ Global N world.shared ∧ ∀ c, PlaceAt N c world.shared (world.place c) := by
  suffices holds : ∃ _ : Unit, (0 < N ∧ Global N world.shared) ∧
      ∀ c, PlaceAt N c world.shared (world.place c) by
    obtain ⟨-, ⟨positive, fine⟩, known⟩ := holds
    exact ⟨positive, fine, known⟩
  refine Callers.invariant (fun _ s => 0 < N ∧ Global N s) (fun _ => PlaceAt N) ?_ ?_ reachable
  · rintro world ⟨created, places⟩
    obtain ⟨nonzero, shared⟩ := Option.ite_none_right_eq_some.mp created
    refine ⟨(), ⟨Nat.pos_of_ne_zero nonzero, ?_⟩, fun c => ?_⟩
    · rw [← Option.some.inj shared]
      exact ⟨(Nat.zero_mod N).symm, by simp [Arrivals.none]⟩
    · rw [places c, ← Option.some.inj shared]
      exact Arrivals.complete_none
  · rintro _ world c _ shared place - ⟨positive, fine⟩ known taken
    have result := Option.some.inj taken
    obtain ⟨fine', mine⟩ := (known c).turn positive fine
    rw [result] at fine' mine
    refine ⟨(), ⟨positive, fine'⟩, mine, fun d other place' knows => ?_⟩
    have record := record_turn (N := N) (c := c) (s := world.shared) (world.place c)
    rw [result] at record
    by_cases arriving : world.place c = .arriving
    · exact knows.arrive other (record.trans (if_pos arriving))
    · have same : shared = world.shared := by
        cases here : world.place c with
        | arriving => exact absurd here arriving
        | outside | spinning =>
            rw [here] at result
            exact (congrArg Prod.fst result).symm
      rw [same]
      exact knows

/-- The arrivals that have happened stay. -/
theorem count_le_of_run (run : (barriers ι N).Run Machine.anyEvent (world :: past)) :
    ∀ earlier ∈ world :: past, earlier.shared.record.count ≤ world.shared.record.count := by
  suffices latest : ∀ states, (barriers ι N).Run Machine.anyEvent states →
      ∀ world past, states = world :: past →
        ∀ earlier ∈ states, earlier.shared.record.count ≤ world.shared.record.count from
    latest _ run world past rfl
  intro states run
  induction run with
  | start =>
      rintro world past same earlier member
      obtain ⟨rfl, -⟩ := List.cons.inj same
      rw [List.mem_singleton.mp member]
  | @next before after states event _ _ step ih =>
      rintro world past same earlier member
      obtain ⟨rfl, -⟩ := List.cons.inj same
      rcases List.mem_cons.mp member with rfl | earlier
      · exact le_rfl
      · refine (ih _ _ rfl _ earlier).trans ?_
        obtain ⟨shared, place, taken, rfl⟩ := Callers.step_eq_some.mp step
        have record := record_turn (N := N) (c := event.1) (s := before.shared)
          (before.place event.1)
        rw [Option.some.inj taken] at record
        rw [record]
        split
        · exact Nat.le_succ _
        · exact le_rfl

theorem InStep.of_reachable [Fintype ι] (participants : Fintype.card ι = N)
    (reachable : (barriers ι N).Reachable Machine.anyEvent world) :
    world.shared.record.InStep N := by
  refine Machine.invariant (fun world => world.shared.record.InStep N) ?_ ?_ reachable
  · rintro world ⟨created, -⟩
    obtain ⟨-, shared⟩ := Option.ite_none_right_eq_some.mp created
    rw [← Option.some.inj shared]
    exact .none
  · rintro world ⟨c, _⟩ next before - inStep step
    obtain ⟨shared, place, taken, rfl⟩ := Callers.step_eq_some.mp step
    have record := record_turn (N := N) (c := c) (s := world.shared) (world.place c)
    rw [Option.some.inj taken] at record
    rw [record]
    split
    next arriving =>
      have known := (PlaceAt.of_reachable before).2.2 c
      rw [arriving] at known
      exact inStep.arrive participants known
    next => exact inStep

/-- The barrier separates its rounds.  The round of the last arrival of a caller is the number of
the arrival divided by the number of waiters. -/
structure Separates (N : ℕ) (world : World ι (State ι) Place) : Prop where
  returned : ∀ c, world.place c = .outside → 0 < world.shared.record.calls c →
    (world.shared.record.number c / N + 1) * N ≤ world.shared.record.count
  counter : world.shared.counter < N
  tag : world.shared.tag = world.shared.record.count / N
  waits : ∀ c curTag, world.place c = .spinning curTag → curTag = world.shared.record.number c / N

theorem Separates.of_reachable (notWrapping : world.shared.record.count / N < 2 ^ 63)
    (reachable : (barriers ι N).Reachable Machine.anyEvent world) : Separates N world := by
  obtain ⟨positive, fine, known⟩ := PlaceAt.of_reachable reachable
  refine ⟨fun c here called => ?_, ?_, ?_, fun c curTag here => ?_⟩
  · have complete := known c
    rw [here] at complete
    exact (Nat.le_div_iff_mul_le positive).mp (complete.resolve_left called.ne')
  · rw [fine.counter]
    exact Nat.mod_lt _ positive
  · rw [fine.tag, Nat.mod_eq_of_lt notWrapping]
  · have knows := known c
    rw [here] at knows
    obtain ⟨-, reached, same⟩ := knows
    rw [same, Nat.mod_eq_of_lt (reached.trans_lt notWrapping)]

end Runs

/-! ## Calls and returns -/

/-- The arrival of the call has been counted at the place. -/
def Place.counted : Place → ℕ
  | .spinning _ => 1
  | .outside | .arriving => 0

/-- The tallies of an observer in a run to a state. -/
abbrev Observed (ι : Type u) [DecidableEq ι] (N : ℕ) (world : World ι (State ι) Place)
    (tallies : ι → Tally) : Prop :=
  (calls ι N).Observed (Begins N) (Tally.observer fun place => decide (place = .outside)) .zero
    world tallies

/-- Every call is counted once. -/
structure Tallied (world : World ι (State ι) Place) (tallies : ι → Tally) : Prop where
  invoked : ∀ c, (tallies c).invoked =
    (tallies c).returned + if world.place c = .outside then 0 else 1
  calls : ∀ c, world.shared.record.calls c = (tallies c).returned + (world.place c).counted

section Calls

variable {world : World ι (State ι) Place} {tallies : ι → Tally}

theorem counted_turn (several : 1 < N) (place : Place) :
    (turn N c s place).1.record.calls c + place.counted = s.record.calls c +
      (turn N c s place).2.counted + if (turn N c s place).2 = .outside then 1 else 0 := by
  rw [record_turn]
  cases place with
  | outside =>
      rw [turn, if_pos several]
      rfl
  | arriving =>
      rw [if_pos rfl, Arrivals.calls_arrive_self, turn, critical]
      split <;> rfl
  | spinning curTag =>
      rw [if_neg nofun, turn]
      by_cases same : curTag = s.tag <;> simp [same, Place.counted]

theorem calls_turn_of_ne (place : Place) (different : d ≠ c) :
    (turn N c s place).1.record.calls d = s.record.calls d := by
  rw [record_turn]
  split
  · exact Arrivals.calls_arrive_of_ne different
  · rfl

theorem Tallied.of_observed (several : 1 < N) (seen : Observed ι N world tallies) :
    Tallied world tallies := by
  refine ⟨fun c => ?_, fun c => ?_⟩
  · simpa using Tally.invoked_eq (fun world begins c => by simp [begins.2 c]) seen c
  · refine Tally.eq_add (fun c s => s.record.calls c) Place.counted ?_ ?_ ?_ seen c
    · rintro world ⟨created, outside⟩ c
      obtain ⟨-, shared⟩ := Option.ite_none_right_eq_some.mp created
      rw [← Option.some.inj shared, outside c]
      exact ⟨rfl, rfl⟩
    · intro c _ s place s' place' taken
      have counted := counted_turn (c := c) (s := s) several place
      rw [Option.some.inj taken] at counted
      simpa using counted
    · intro c _ s place s' place' d different taken
      have same := calls_turn_of_ne (N := N) (s := s) place different
      rwa [Option.some.inj taken] at same

/-- Nobody returns more often than every participant has called. -/
theorem Tallied.returned_le [Fintype ι] (participants : Fintype.card ι = N)
    (reachable : (barriers ι N).Reachable Machine.anyEvent world)
    (tallied : Tallied world tallies) (c d : ι) : (tallies c).returned ≤ (tallies d).invoked := by
  have atMost : world.shared.record.calls d ≤ (tallies d).invoked := by
    rw [tallied.calls, tallied.invoked]
    cases world.place d <;> simp [Place.counted]
  refine le_trans ?_ atMost
  have counted := tallied.calls c
  have known := (PlaceAt.of_reachable reachable).2.2 c
  have ahead := (InStep.of_reachable participants reachable).calls_le c d
  cases here : world.place c with
  | outside | arriving =>
      rw [here] at known counted
      rw [if_neg (Arrivals.Complete.not_current known), counted] at ahead
      exact ahead
  | spinning curTag =>
      rw [here] at counted
      change _ = _ + 1 at counted
      split at ahead <;> omega

end Calls

/-- **The barrier of execution streams separates rounds.**  A caller that spins sees another tag
from the last arrival of its round on, and a wait that has returned has been counted.  With as many
participants as waiters, the rounds of a participant are its calls, and nobody returns from a
round that another one has not begun. -/
theorem xstreamBarrier_separates {ι : Type u} [DecidableEq ι] {N : ℕ}
    {world : World ι (State ι) Place} {past : List (World ι (State ι) Place)}
    (run : (barriers ι N).Run Machine.anyEvent (world :: past))
    (notWrapping : world.shared.record.count / N < 2 ^ 63) :
    Separates N world ∧
      (∀ earlier ∈ world :: past, ∀ c curTag, world.place c = .spinning curTag →
        (world.shared.record.number c / N + 1) * N ≤ earlier.shared.record.count →
          curTag ≠ world.shared.tag) ∧
      (∀ [Fintype ι], Fintype.card ι = N → ∀ c, 0 < world.shared.record.calls c →
        world.shared.record.number c / N + 1 = world.shared.record.calls c) ∧
      (∃ tallies, Observed ι N world tallies) ∧
      (1 < N → ∀ tallies, Observed ι N world tallies → Tallied world tallies ∧
        ∀ [Fintype ι], Fintype.card ι = N → ∀ c d, (tallies c).returned ≤ (tallies d).invoked) := by
  have reachable : (barriers ι N).Reachable Machine.anyEvent world := ⟨past, run⟩
  have separates := Separates.of_reachable notWrapping reachable
  refine ⟨separates, fun earlier member c curTag here arrived => ?_, fun participants =>
    (InStep.of_reachable participants reachable).own, Callers.exists_observed _ _ reachable,
    fun several tallies seen => ⟨.of_observed several seen, fun participants =>
      (Tallied.of_observed several seen).returned_le participants reachable⟩⟩
  have positive := (PlaceAt.of_reachable reachable).1
  have complete := arrived.trans (count_le_of_run run earlier member)
  rw [separates.waits c curTag here, separates.tag]
  exact (Nat.lt_of_succ_le ((Nat.le_div_iff_mul_le positive).mpr complete)).ne

def twoOutside : World (Fin 2) (State (Fin 2)) Place where
  shared := ⟨0, 0, .none⟩
  place _ := .outside

/-- The second of two callers has released the first one and spins for the next round, while the
first one has not read the new tag. -/
theorem xstreamBarrier_separates_two :
    ∃ world : World (Fin 2) (State (Fin 2)) Place, Separates 2 world ∧
      world.place 0 = .spinning 0 ∧ world.place 1 = .spinning 1 := by
  obtain ⟨world, ⟨past, run⟩, holds⟩ := Machine.exists_reachable_of_play Machine.anyEvent
    (M := barriers (Fin 2) 2) (s := twoOutside) ⟨rfl, fun _ => rfl⟩
    ([0, 0, 1, 1, 1, 1].map fun c => (c, ()))
    (fun world => world.place 0 = .spinning 0 ∧ world.place 1 = .spinning 1 ∧
      world.shared.record.count / 2 < 2 ^ 63) (by decide)
  obtain ⟨first, second, notWrapping⟩ := of_decide_eq_true holds
  exact ⟨world, (xstreamBarrier_separates run notWrapping).1, first, second⟩

end ArgobotsReduction.Sync.XstreamBarrier
