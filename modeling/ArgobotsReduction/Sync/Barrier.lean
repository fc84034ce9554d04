import Mathlib.Data.Fintype.Card
import Mathlib.Data.List.Nodup
import Mathlib.Tactic.Ring
import ArgobotsReduction.Containers.Ledger
import ArgobotsReduction.Parallel.Arrivals
import ArgobotsReduction.Parallel.Observers

/-!
# The barrier

`ABT_barrier_wait` counts its callers under the lock of the barrier.  All but the last
caller of a round wait in the waitlist, and the last one wakes them one after the
other, resets the counter and releases the lock.  A caller that has been woken may
call again at once.

The waitlist is the queue of its waiters (`Waitlist.WellFormed`), and a caller that
waits is woken when it is in it no more.  Arrivals are numbered, and the arrivals of a
round are the next `num_waiters` ones.

An observer counts how often a caller has called and how often it has returned.  Every wait
that has returned has been counted, and its round is complete (`Tallied`).  With as many
participants as waiters nobody returns more often than every other one has called.
-/

set_option autoImplicit false

namespace ArgobotsReduction.Sync.Barrier

open Containers Parallel

universe u

/-- `ABTI_barrier`.  `arrivals` counts the calls that have been counted, `number` is the
number of the last one of a caller, and `calls` counts them by caller. -/
structure State (ι : Type u) where
  lock : Bool
  counter : ℕ
  waitlist : List ι
  arrivals : ℕ
  number : ι → ℕ
  calls : ι → ℕ

/-- The places of `ABT_barrier_wait`. -/
inductive Place where
  | outside
  | acquire
  | locked
  | enqueue
  | waiting
  | broadcast
  | reset
  | release
  deriving DecidableEq

variable {ι : Type u}

/-- A turn in `ABT_barrier_wait`. -/
def turn [DecidableEq ι] (numWaiters : ℕ) (c : ι) (s : State ι) : Place → Option (State ι × Place)
  | .outside => some (s, .acquire)
  | .acquire => if s.lock then none else some ({ s with lock := true }, .locked)
  | .locked =>
      some ({ s with
        counter := s.counter + 1
        arrivals := s.arrivals + 1
        number := Function.update s.number c s.arrivals
        calls := Function.update s.calls c (s.calls c + 1) },
        if s.counter + 1 < numWaiters then .enqueue else .broadcast)
  | .enqueue => some ({ s with waitlist := s.waitlist ++ [c], lock := false }, .waiting)
  | .waiting => if c ∈ s.waitlist then none else some (s, .outside)
  | .broadcast =>
      match s.waitlist with
      | [] => some (s, .reset)
      | _ :: rest => some ({ s with waitlist := rest }, .broadcast)
  | .reset => some ({ s with counter := 0 }, .release)
  | .release => some ({ s with lock := false }, .outside)

/-- Calls of `ABT_barrier_wait`, again and again. -/
def calls (ι : Type u) [DecidableEq ι] (numWaiters : ℕ) : Callers ι (State ι) Place Unit where
  turn c _ s place := turn numWaiters c s place

/-- A barrier that nobody has called yet. -/
def Begins (world : World ι (State ι) Place) : Prop :=
  world.shared.lock = false ∧ world.shared.counter = 0 ∧ world.shared.waitlist = [] ∧
    world.shared.arrivals = 0 ∧ (∀ c, world.shared.calls c = 0) ∧ ∀ c, world.place c = .outside

/-- The barriers with their callers. -/
def barriers (ι : Type u) [DecidableEq ι] (numWaiters : ℕ) :
    Machine (World ι (State ι) Place) (ι × Unit) :=
  (calls ι numWaiters).machine Begins

/-! ## Assertions -/

/-- The caller has the lock at the place. -/
def Place.Holds : Place → Prop
  | .locked | .enqueue | .broadcast | .reset | .release => True
  | _ => False

/-- All arrivals of the round of the caller's last arrival have happened. -/
def Complete (numWaiters : ℕ) (s : State ι) (c : ι) : Prop :=
  s.calls c = 0 ∨ s.number c / numWaiters < s.arrivals / numWaiters

/-- What a caller knows at its place. -/
def PlaceAt (numWaiters : ℕ) (c : ι) (s : State ι) : Place → Prop
  | .outside | .acquire => Complete numWaiters s c
  | .locked => Complete numWaiters s c ∧ s.counter = s.waitlist.length ∧ s.counter < numWaiters
  | .enqueue => s.counter = s.waitlist.length + 1 ∧ s.counter < numWaiters ∧ 0 < s.calls c ∧
      s.number c / numWaiters = s.arrivals / numWaiters
  | .waiting => c ∉ s.waitlist → Complete numWaiters s c
  | .broadcast => Complete numWaiters s c ∧ s.counter = numWaiters ∧ s.number c + 1 = s.arrivals
  | .reset => Complete numWaiters s c ∧ s.counter = numWaiters ∧ s.waitlist = []
  | .release => Complete numWaiters s c ∧ s.counter = 0 ∧ s.waitlist = []

/-- The assertion of a caller.  The holder has the lock. -/
structure Local (numWaiters : ℕ) (holder : Option ι) (c : ι) (s : State ι) (place : Place) :
    Prop where
  holder : holder = some c ↔ place.Holds
  listed : c ∈ s.waitlist → place = .waiting
  known : PlaceAt numWaiters c s place

/-- What is shared agrees with the arrivals so far. -/
structure Global (numWaiters : ℕ) (holder : Option ι) (s : State ι) : Prop where
  lock : s.lock = holder.isSome
  nodup : s.waitlist.Nodup
  counted : holder = none → s.counter = s.waitlist.length ∧ s.counter < numWaiters
  arrived : s.arrivals % numWaiters = s.counter % numWaiters
  round : ∀ c ∈ s.waitlist, 0 < s.calls c ∧
    s.number c / numWaiters + (if s.counter = numWaiters then 1 else 0) = s.arrivals / numWaiters

/-! ## One turn -/

section Turn

variable {N : ℕ} {holder holder' : Option ι} {c d : ι} {s s' : State ι} {place place' : Place}

/-- What a turn of another caller leaves to a caller. -/
structure Keeps (N : ℕ) (holder holder' : Option ι) (s s' : State ι) (d : ι) : Prop where
  owner : holder' = some d ↔ holder = some d
  free : holder = some d → s' = s
  number : s'.number d = s.number d
  calls : s'.calls d = s.calls d
  arrivals : s.arrivals ≤ s'.arrivals
  listed : d ∈ s'.waitlist → d ∈ s.waitlist
  woken : d ∈ s.waitlist → d ∉ s'.waitlist → Complete N s' d

theorem Complete.mono (complete : Complete N s d) (number : s'.number d = s.number d)
    (calls : s'.calls d = s.calls d) (arrivals : s.arrivals ≤ s'.arrivals) : Complete N s' d := by
  rw [Complete, number, calls]
  exact complete.imp_right fun before => before.trans_le (Nat.div_le_div_right arrivals)

theorem Local.mono (keeps : Keeps N holder holder' s s' d) (holds : Local N holder d s place) :
    Local N holder' d s' place where
  holder := keeps.owner.trans holds.holder
  listed member := holds.listed (keeps.listed member)
  known := by
    have known := holds.known
    cases place with
    | outside | acquire => exact known.mono keeps.number keeps.calls keeps.arrivals
    | locked | enqueue | broadcast | reset | release =>
        rw [keeps.free (holds.holder.mpr trivial)]
        exact known
    | waiting =>
        intro absent
        by_cases member : d ∈ s.waitlist
        · exact keeps.woken member absent
        · exact (known member).mono keeps.number keeps.calls keeps.arrivals

/-- What a turn has to establish. -/
def Fine (N : ℕ) (holder : Option ι) (c : ι) (s s' : State ι) (place' : Place) : Prop :=
  ∃ holder', Global N holder' s' ∧ Local N holder' c s' place' ∧
    ∀ d, d ≠ c → Keeps N holder holder' s s' d

/-- A turn that changes nothing that is shared. -/
theorem Local.still (holds : Local N holder c s place) (fine : Global N holder s)
    (held : place'.Holds ↔ place.Holds) (listed : c ∉ s.waitlist)
    (known : PlaceAt N c s place') : Fine N holder c s s place' :=
  ⟨holder, fine, ⟨holds.holder.trans held.symm, fun member => absurd member listed, known⟩,
    fun _ _ => ⟨.rfl, fun _ => rfl, rfl, rfl, le_rfl, id, fun member left => absurd member left⟩⟩

/-- The holder of the lock changes what is shared. -/
theorem Local.change (holds : Local N holder c s place) (held : place.Holds)
    (fine : Global N holder s') (still : place'.Holds) (listed : c ∉ s'.waitlist)
    (known : PlaceAt N c s' place')
    (others : ∀ d, d ≠ c → s'.number d = s.number d ∧ s'.calls d = s.calls d)
    (arrivals : s.arrivals ≤ s'.arrivals) (less : ∀ d ∈ s'.waitlist, d ∈ s.waitlist)
    (woken : ∀ d ∈ s.waitlist, d ∉ s'.waitlist → Complete N s' d) :
    Fine N holder c s s' place' := by
  have mine := holds.holder.mpr held
  refine ⟨holder, fine, ⟨iff_of_true mine still, fun member => absurd member listed, known⟩,
    fun d different => ⟨.rfl, fun theirs => ?_, (others d different).1, (others d different).2,
      arrivals, less d, woken d⟩⟩
  exact absurd (Option.some.inj (theirs.symm.trans mine)) different

/-- The holder of the lock releases it. -/
theorem Local.release (holds : Local N holder c s place) (held : place.Holds)
    (fine : Global N none s') (after : ¬place'.Holds) (listed : c ∈ s'.waitlist → place' = .waiting)
    (known : PlaceAt N c s' place') (number : s'.number = s.number) (calls : s'.calls = s.calls)
    (arrivals : s'.arrivals = s.arrivals)
    (same : ∀ d, d ≠ c → (d ∈ s'.waitlist ↔ d ∈ s.waitlist)) :
    Fine N holder c s s' place' := by
  have mine := holds.holder.mpr held
  refine ⟨none, fine, ⟨iff_of_false nofun after, listed, known⟩, fun d different => ?_⟩
  have notTheirs : holder ≠ some d := fun theirs =>
    different (Option.some.inj (theirs.symm.trans mine))
  exact ⟨iff_of_false nofun notTheirs, fun theirs => absurd theirs notTheirs, by rw [number],
    by rw [calls], arrivals.ge, (same d different).mp,
    fun member left => absurd ((same d different).mpr member) left⟩

theorem Local.absent (holds : Local N holder c s place) (elsewhere : place ≠ .waiting) :
    c ∉ s.waitlist := fun member => elsewhere (holds.listed member)

variable [DecidableEq ι]

/-- The arrival that is counted under the lock. -/
theorem Local.arrive (holds : Local N holder c s .locked) (fine : Global N holder s) :
    Fine N holder c s
      { s with
        counter := s.counter + 1
        arrivals := s.arrivals + 1
        number := Function.update s.number c s.arrivals
        calls := Function.update s.calls c (s.calls c + 1) }
      (if s.counter + 1 < N then .enqueue else .broadcast) := by
  obtain ⟨-, counted, below⟩ := holds.known
  have absent := holds.absent nofun
  have mine := holds.holder.mpr trivial
  have rest : s.arrivals % N = s.counter := by rw [fine.arrived, Nat.mod_eq_of_lt below]
  have rounds : ∀ d ∈ s.waitlist, 0 < s.calls d ∧ s.number d / N = s.arrivals / N :=
    fun d member => by simpa [below.ne] using fine.round d member
  have notMine : ∀ d ∈ s.waitlist, d ≠ c := fun d member => ne_of_mem_of_not_mem member absent
  have others : ∀ d, d ≠ c → Function.update s.number c s.arrivals d = s.number d ∧
      Function.update s.calls c (s.calls c + 1) d = s.calls d := fun d different =>
    ⟨Function.update_of_ne different _ _, Function.update_of_ne different _ _⟩
  split
  next more =>
    obtain ⟨same, remainder⟩ := div_succ_of_lt rest more
    refine holds.change trivial ⟨fine.lock, fine.nodup, by simp [mine], ?_, fun d member => ?_⟩
      trivial absent ⟨by simp [counted], more, by simp, ?_⟩ others (Nat.le_succ _) (fun _ => id)
      fun d member left => absurd member left
    · rw [remainder, Nat.mod_eq_of_lt more]
    · simpa [notMine d member, more.ne, same] using rounds d member
    · simp [same]
  next full =>
    have last : s.counter + 1 = N := le_antisymm below (Nat.le_of_not_lt full)
    obtain ⟨next, remainder⟩ := div_succ_of_eq rest last
    refine holds.change trivial ⟨fine.lock, fine.nodup, by simp [mine], ?_, fun d member => ?_⟩
      trivial absent ⟨.inr ?_, last, by simp⟩ others (Nat.le_succ _) (fun _ => id)
      fun d member left => absurd member left
    · rw [remainder, last, Nat.mod_self]
    · simpa [notMine d member, last, next] using rounds d member
    · simp [next]

/-- **Every turn keeps the assertions.** -/
theorem Local.turn (positive : 0 < N) (holds : Local N holder c s place)
    (fine : Global N holder s) (taken : turn N c s place = some (s', place')) :
    Fine N holder c s s' place' := by
  have known := holds.known
  cases place with
  | outside =>
      cases taken
      exact holds.still fine .rfl (holds.absent nofun) known
  | acquire =>
      obtain ⟨free, taken⟩ := Option.ite_none_left_eq_some.mp taken
      cases taken
      have nobody : holder = none := by simpa [fine.lock] using free
      obtain ⟨counted, below⟩ := fine.counted nobody
      have absent := holds.absent nofun
      exact ⟨some c, ⟨rfl, fine.nodup, nofun, fine.arrived, fine.round⟩,
        ⟨iff_of_true rfl trivial, fun member => absurd member absent, known, counted, below⟩,
        fun d different => ⟨by simp [nobody, different.symm], by simp [nobody], rfl, rfl, le_rfl, id,
          fun member left => absurd member left⟩⟩
  | locked =>
      cases taken
      exact holds.arrive fine
  | enqueue =>
      cases taken
      obtain ⟨counted, below, current⟩ := known
      have absent := holds.absent nofun
      refine holds.release trivial ⟨rfl, ?_, fun _ => ⟨by simpa using counted, below⟩, fine.arrived,
        fun d member => ?_⟩ id (fun _ => rfl) (fun left => absurd (by simp) left) rfl rfl rfl
        fun d different => by simp [different]
      · exact List.nodup_append.mpr ⟨fine.nodup, List.nodup_singleton c, by
          rintro a member b isNew rfl
          exact absent (List.mem_singleton.mp isNew ▸ member)⟩
      · rcases List.mem_append.mp member with earlier | new
        · exact fine.round d earlier
        · obtain rfl := List.mem_singleton.mp new
          simpa [below.ne] using current
  | waiting =>
      obtain ⟨left, taken⟩ := Option.ite_none_left_eq_some.mp taken
      cases taken
      exact holds.still fine .rfl left (known left)
  | broadcast =>
      rw [Barrier.turn] at taken
      split at taken
      next empty =>
        cases taken
        exact holds.still fine .rfl (holds.absent nofun) ⟨known.1, known.2.1, empty⟩
      next first rest split =>
        cases taken
        have mine := holds.holder.mpr trivial
        have absent := holds.absent nofun
        have less : ∀ d ∈ rest, d ∈ s.waitlist := fun d member => by simp [split, member]
        have nodup := fine.nodup
        rw [split] at nodup
        refine holds.change trivial ⟨fine.lock, nodup.of_cons, by simp [mine], fine.arrived,
          fun d member => fine.round d (less d member)⟩ trivial
          (fun member => absent (less c member))
          known (fun _ _ => ⟨rfl, rfl⟩) le_rfl less fun d member _ => .inr ?_
        have round := (fine.round d member).2
        rw [if_pos known.2.1] at round
        exact round ▸ Nat.lt_succ_self _
  | reset =>
      cases taken
      obtain ⟨complete, full, empty⟩ := known
      have mine := holds.holder.mpr trivial
      refine holds.change trivial ⟨fine.lock, fine.nodup, by simp [mine], ?_, by simp [empty]⟩
        trivial
        (holds.absent nofun) ⟨complete, rfl, empty⟩ (fun _ _ => ⟨rfl, rfl⟩) le_rfl (fun _ => id)
        fun d member left => absurd member left
      rw [fine.arrived, full, Nat.mod_self, Nat.zero_mod]
  | release =>
      cases taken
      obtain ⟨complete, zero, empty⟩ := known
      exact holds.release trivial ⟨rfl, fine.nodup, fun _ => ⟨by simp [zero, empty], by
        simpa [zero] using positive⟩, fine.arrived, fine.round⟩ id
        (fun member => absurd member (holds.absent nofun)) complete rfl rfl rfl fun _ _ => .rfl

end Turn

/-! ## Runs -/

section Runs

variable [DecidableEq ι] {N : ℕ} {world : World ι (State ι) Place}

theorem Local.of_reachable (positive : 0 < N)
    (reachable : (barriers ι N).Reachable Machine.anyEvent world) :
    ∃ holder, Global N holder world.shared ∧
      ∀ c, Local N holder c world.shared (world.place c) := by
  refine Callers.invariant (Global N) (Local N) ?_ ?_ reachable
  · rintro world ⟨free, counter, waitlist, arrivals, calls, begins⟩
    refine ⟨none, ⟨by simp [free], by simp [waitlist], fun _ => ?_, by simp [arrivals, counter], by
      simp [waitlist]⟩, fun c => ?_⟩
    · simp [counter, waitlist, positive]
    · rw [begins c]
      exact ⟨iff_of_false nofun id, by simp [waitlist], .inl (calls c)⟩
  · intro holder world c _ shared place _ fine locals taken
    obtain ⟨holder', fine', mine, others⟩ := (locals c).turn positive fine taken
    exact ⟨holder', fine', mine, fun d different _ holds => holds.mono (others d different)⟩

/-- The barrier separates its rounds. -/
structure Separates (N : ℕ) (world : World ι (State ι) Place) : Prop where
  returned : ∀ c, world.place c = .outside → Complete N world.shared c
  unwoken : ∀ c, world.place c = .waiting → ¬Complete N world.shared c → c ∈ world.shared.waitlist
  released : ∀ c ∈ world.shared.waitlist, Complete N world.shared c →
    ∃ d, world.place d = .broadcast ∧
      world.shared.number d + 1 = (world.shared.number c / N + 1) * N
  emptied : ∀ c, world.place c = .reset ∨ world.place c = .release → world.shared.waitlist = []
  counter : world.shared.lock = false →
    world.shared.counter = world.shared.waitlist.length ∧ world.shared.counter < N
  assertion : ∀ c, world.place c = .locked → world.shared.counter < N

theorem Separates.of_reachable (positive : 0 < N)
    (reachable : (barriers ι N).Reachable Machine.anyEvent world) : Separates N world := by
  obtain ⟨holder, fine, locals⟩ := Local.of_reachable positive reachable
  have known : ∀ c place, world.place c = place → PlaceAt N c world.shared place := by
    rintro c _ rfl
    exact (locals c).known
  refine ⟨fun c here => known c _ here, fun c here incomplete => ?_, fun c member complete => ?_,
    fun c here => ?_, fun free => ?_, fun c here => (known c _ here).2.2⟩
  · by_contra left
    exact incomplete (known c _ here left)
  · obtain ⟨called, round⟩ := fine.round c member
    have before := complete.resolve_left called.ne'
    have full : world.shared.counter = N := by
      by_contra notFull
      rw [if_neg notFull] at round
      exact absurd round before.ne
    have held : holder ≠ none := fun nobody => (fine.counted nobody).2.ne full
    obtain ⟨d, isHolder⟩ := Option.ne_none_iff_exists'.mp held
    have place := (locals d).holder.mp isHolder
    have knows := (locals d).known
    cases here : world.place d with
    | outside | acquire | waiting =>
        rw [here] at place
        exact place.elim
    | locked =>
        rw [here] at knows
        exact absurd full knows.2.2.ne
    | enqueue =>
        rw [here] at knows
        exact absurd full knows.2.1.ne
    | reset | release =>
        rw [here] at knows
        rw [knows.2.2] at member
        cases member
    | broadcast =>
        rw [here] at knows
        refine ⟨d, here, ?_⟩
        have whole : N ∣ world.shared.arrivals :=
          Nat.dvd_of_mod_eq_zero (by rw [fine.arrived, full, Nat.mod_self])
        rw [if_pos full] at round
        rw [knows.2.2, round, Nat.div_mul_cancel whole]
  · rcases here with here | here
    · exact (known c _ here).2.2
    · exact (known c _ here).2.2
  · exact fine.counted (by simpa [fine.lock] using free)

end Runs

/-! ## As many participants as waiters -/

section Participants

variable {N : ℕ} {s t : State ι}

/-- The last arrival of the caller belongs to the round that is not complete. -/
def Current (N : ℕ) (s : State ι) (c : ι) : Prop :=
  0 < s.calls c ∧ s.number c / N = s.arrivals / N

instance (N : ℕ) (s : State ι) : DecidablePred (Current N s) := fun _ =>
  inferInstanceAs (Decidable (_ ∧ _))

/-- Every participant has arrived once in every complete round, and at most once in the
other one. -/
structure InStep [Fintype ι] (N : ℕ) (s : State ι) : Prop where
  calls : ∀ c, s.calls c = s.arrivals / N + if Current N s c then 1 else 0
  own : ∀ c, 0 < s.calls c → s.number c / N + 1 = s.calls c
  card : (Finset.univ.filter (Current N s)).card = s.arrivals % N

/-- The record of the arrivals. -/
def State.record (s : State ι) : Arrivals ι := ⟨s.arrivals, s.number, s.calls⟩

theorem inStep_iff [Fintype ι] : InStep N s ↔ s.record.InStep N :=
  ⟨fun ⟨calls, own, card⟩ => ⟨calls, own, card⟩, fun ⟨calls, own, card⟩ => ⟨calls, own, card⟩⟩

variable [DecidableEq ι]

/-- Only the turn under the lock counts an arrival. -/
theorem arrivals_of_turn {c : ι} {place place' : Place}
    (taken : turn N c s place = some (t, place')) (elsewhere : place ≠ .locked) :
    t.arrivals = s.arrivals ∧ t.number = s.number ∧ t.calls = s.calls := by
  cases place with
  | locked => exact absurd rfl elsewhere
  | acquire | waiting =>
      obtain ⟨-, taken⟩ := Option.ite_none_left_eq_some.mp taken
      cases taken
      exact ⟨rfl, rfl, rfl⟩
  | broadcast =>
      rw [turn] at taken
      split at taken <;> cases taken <;> exact ⟨rfl, rfl, rfl⟩
  | outside | enqueue | reset | release =>
      cases taken
      exact ⟨rfl, rfl, rfl⟩

theorem InStep.of_reachable [Fintype ι] (positive : 0 < N) (participants : Fintype.card ι = N)
    {world : World ι (State ι) Place}
    (reachable : (barriers ι N).Reachable Machine.anyEvent world) : InStep N world.shared := by
  refine Machine.invariant (fun world => InStep N world.shared) ?_ ?_ reachable
  · rintro world ⟨-, -, -, arrivals, calls, -⟩
    have none : ∀ c, ¬Current N world.shared c := fun c current => by
      simp [Current, calls c] at current
    refine ⟨fun c => by simp [calls c, arrivals, none c], fun c called => ?_, ?_⟩
    · simp [calls c] at called
    · simp [arrivals, none]
  · rintro world ⟨c, _⟩ next before - inStep step
    obtain ⟨shared, place, taken, rfl⟩ := Callers.step_eq_some.mp step
    rcases eq_or_ne (world.place c) .locked with here | elsewhere
    · obtain ⟨holder, -, locals⟩ := Local.of_reachable positive before
      have known := (locals c).known
      rw [here] at known
      change turn N c world.shared (world.place c) = _ at taken
      rw [here] at taken
      cases taken
      exact inStep_iff.mpr ((inStep_iff.mp inStep).arrive participants known.1)
    · have same : shared.record = world.shared.record := by
        obtain ⟨arrivals, number, calls⟩ := arrivals_of_turn taken elsewhere
        rw [State.record, State.record, arrivals, number, calls]
      rw [inStep_iff, same]
      exact inStep_iff.mp inStep

end Participants

/-! ## Calls and returns -/

/-- The arrival of the call has been counted at the place. -/
def Place.counted : Place → ℕ
  | .enqueue | .waiting | .broadcast | .reset | .release => 1
  | .outside | .acquire | .locked => 0

/-- The tallies of an observer in a run to a state. -/
abbrev Observed (ι : Type u) [DecidableEq ι] (N : ℕ) (world : World ι (State ι) Place)
    (tallies : ι → Tally) : Prop :=
  (calls ι N).Observed Begins (Tally.observer fun place => decide (place = .outside)) .zero world
    tallies

/-- Every call is counted once, and a call that has returned belongs to a round that is
complete. -/
structure Tallied (N : ℕ) (world : World ι (State ι) Place) (tallies : ι → Tally) : Prop where
  invoked : ∀ c, (tallies c).invoked =
    (tallies c).returned + if world.place c = .outside then 0 else 1
  calls : ∀ c, world.shared.calls c = (tallies c).returned + (world.place c).counted
  returned : ∀ c, world.place c = .outside → 0 < (tallies c).returned →
    (world.shared.number c / N + 1) * N ≤ world.shared.arrivals

section Calls

variable [DecidableEq ι] {N : ℕ} {world : World ι (State ι) Place} {tallies : ι → Tally}

theorem counted_turn {c : ι} {s s' : State ι} {place place' : Place}
    (taken : turn N c s place = some (s', place')) :
    s'.calls c + place.counted =
        s.calls c + place'.counted + (if place' = .outside then 1 else 0) ∧
      ∀ d, d ≠ c → s'.calls d = s.calls d := by
  rcases eq_or_ne place .locked with rfl | elsewhere
  · cases taken
    refine ⟨?_, fun d different => Function.update_of_ne different _ _⟩
    split <;> simp [Place.counted]
  · rw [(arrivals_of_turn taken elsewhere).2.2]
    refine ⟨?_, fun _ _ => rfl⟩
    cases place with
    | locked => exact absurd rfl elsewhere
    | acquire | waiting =>
        obtain ⟨-, taken⟩ := Option.ite_none_left_eq_some.mp taken
        cases taken
        rfl
    | broadcast =>
        rw [turn] at taken
        split at taken <;> cases taken <;> rfl
    | outside | enqueue | reset | release =>
        cases taken
        rfl

theorem Tallied.of_observed (positive : 0 < N) (seen : Observed ι N world tallies) :
    Tallied N world tallies := by
  have counted : ∀ c, world.shared.calls c = (tallies c).returned + (world.place c).counted := by
    refine Tally.eq_add (fun c s => s.calls c) Place.counted ?_ ?_ ?_ seen
    · rintro world ⟨-, -, -, -, calls, outside⟩ c
      exact ⟨calls c, by rw [outside c]; rfl⟩
    · intro c _ s place s' place' taken
      simpa using (counted_turn taken).1
    · intro c _ s place s' place' d different taken
      exact (counted_turn taken).2 d different
  refine ⟨fun c => ?_, counted, fun c here returned => ?_⟩
  · have balanced := Tally.invoked_eq (fun world begins c => by simp [begins.2.2.2.2.2 c]) seen c
    simpa using balanced
  · have complete := (Separates.of_reachable positive seen.reachable).returned c here
    have called : 0 < world.shared.calls c := by
      rw [counted c]
      exact Nat.lt_of_lt_of_le returned (Nat.le_add_right _ _)
    exact (Nat.le_div_iff_mul_le positive).mp (complete.resolve_left called.ne')

/-- The arrivals are those of the callers. -/
theorem arrivals_eq_sum [Fintype ι]
    (reachable : (barriers ι N).Reachable Machine.anyEvent world) :
    world.shared.arrivals = ∑ c, world.shared.calls c := by
  refine Machine.invariant (fun world => world.shared.arrivals = ∑ c, world.shared.calls c) ?_ ?_
    reachable
  · rintro world ⟨-, -, -, arrivals, calls, -⟩
    rw [arrivals, Finset.sum_eq_zero fun c _ => calls c]
  · rintro world ⟨c, _⟩ next - - sum step
    obtain ⟨shared, place, taken, rfl⟩ := Callers.step_eq_some.mp step
    change turn N c world.shared (world.place c) = _ at taken
    rcases eq_or_ne (world.place c) .locked with here | elsewhere
    · rw [here] at taken
      cases taken
      have more := sum_update_add world.shared.calls c (world.shared.calls c + 1)
      change world.shared.arrivals + 1 =
        ∑ d, Function.update world.shared.calls c (world.shared.calls c + 1) d
      omega
    · obtain ⟨arrivals, -, calls⟩ := arrivals_of_turn taken elsewhere
      rw [arrivals, calls]
      exact sum

/-- Nobody returns more often than every participant has called. -/
theorem Tallied.returned_le [Fintype ι] (positive : 0 < N) (participants : Fintype.card ι = N)
    (reachable : (barriers ι N).Reachable Machine.anyEvent world)
    (tallied : Tallied N world tallies) (c d : ι) : (tallies c).returned ≤ (tallies d).invoked := by
  have inStep := inStep_iff.mp (InStep.of_reachable positive participants reachable)
  obtain ⟨holder, -, locals⟩ := Local.of_reachable positive reachable
  have known := (locals c).known
  have atMost : world.shared.calls d ≤ (tallies d).invoked := by
    rw [tallied.calls, tallied.invoked]
    cases world.place d <;> simp [Place.counted]
  refine le_trans ?_ atMost
  have counted := tallied.calls c
  have ahead : world.shared.calls c ≤ world.shared.calls d +
      if world.shared.record.Current N c then 1 else 0 := inStep.calls_le c d
  have complete : world.shared.record.Complete N c → ¬world.shared.record.Current N c :=
    Arrivals.Complete.not_current
  cases here : world.place c with
  | outside | acquire =>
      rw [here] at known counted
      rw [if_neg (complete known), counted] at ahead
      exact ahead
  | locked =>
      rw [here] at known counted
      rw [if_neg (complete known.1), counted] at ahead
      exact ahead
  | enqueue | waiting | broadcast | reset | release =>
      rw [here] at counted
      change _ = _ + 1 at counted
      split at ahead <;> omega

end Calls

/-- **The barrier separates rounds.**  A wait that has returned has been counted in a round that is
complete.  With as many participants as waiters, the rounds of a participant are its calls, and
nobody returns from a round that another one has not begun. -/
theorem barrier_separates {ι : Type u} [DecidableEq ι] {N : ℕ} (positive : 0 < N)
    {world : World ι (State ι) Place}
    (reachable : (barriers ι N).Reachable Machine.anyEvent world) :
    Separates N world ∧ (∃ tallies, Observed ι N world tallies) ∧
      (∀ tallies, Observed ι N world tallies → Tallied N world tallies) ∧
      ∀ [Fintype ι], world.shared.arrivals = ∑ c, world.shared.calls c ∧
        (Fintype.card ι = N →
          (∀ c, 0 < world.shared.calls c →
            world.shared.number c / N + 1 = world.shared.calls c) ∧
          ∀ tallies, Observed ι N world tallies →
            ∀ c d, (tallies c).returned ≤ (tallies d).invoked) :=
  ⟨.of_reachable positive reachable, Callers.exists_observed _ _ reachable,
    fun _ => .of_observed positive, arrivals_eq_sum reachable, fun participants =>
      ⟨(InStep.of_reachable positive participants reachable).own, fun _ seen =>
        (Tallied.of_observed positive seen).returned_le positive participants reachable⟩⟩

def twoOutside : World (Fin 2) (State (Fin 2)) Place where
  shared := ⟨false, 0, [], 0, fun _ => 0, fun _ => 0⟩
  place _ := .outside

/-- The second of two participants wakes the first one, which calls again before the
second one has released the lock. -/
theorem barrier_separates_two :
    ∃ world : World (Fin 2) (State (Fin 2)) Place, Separates 2 world ∧
      world.place 0 = .acquire ∧ world.place 1 = .reset ∧
        ∀ tallies, Observed (Fin 2) 2 world tallies →
          tallies 0 = ⟨2, 1⟩ ∧ tallies 1 = ⟨1, 0⟩ := by
  obtain ⟨world, reachable, places⟩ := Machine.exists_reachable_of_play Machine.anyEvent
    (M := barriers (Fin 2) 2) (s := twoOutside)
    ⟨rfl, rfl, rfl, rfl, fun _ => rfl, fun _ => rfl⟩
    ([0, 0, 0, 0, 1, 1, 1, 1, 0, 0, 1].map fun c => (c, ()))
    (fun world => world.place 0 = .acquire ∧ world.place 1 = .reset ∧ world.shared.calls 0 = 1 ∧
      world.shared.calls 1 = 1) (by decide)
  obtain ⟨first, second, called, calledToo⟩ := of_decide_eq_true places
  obtain ⟨separates, -, tallied, -⟩ := barrier_separates (by decide) reachable
  refine ⟨world, separates, first, second, fun tallies seen => ?_⟩
  obtain ⟨invoked, calls, -⟩ := tallied tallies seen
  have zero := calls 0
  have one := calls 1
  have zero' := invoked 0
  have one' := invoked 1
  rw [first] at zero zero'
  rw [second] at one one'
  cases here : tallies 0
  cases there : tallies 1
  simp only [here, there, called, calledToo, Place.counted, reduceCtorEq, if_false, Tally.mk.injEq]
    at *
  omega

end ArgobotsReduction.Sync.Barrier
