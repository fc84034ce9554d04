import ArgobotsReduction.Parallel.Machine

/-!
# Lifetimes of tasks that are known by handles

A main task creates tasks, joins them and frees them.  It knows them by handles, which
lie in slots.  A task ends at any time after its creation, whatever it does and however
it is scheduled, and a join waits for the end.

A ledger says what has become of every task, and depends only on the code that has run,
not on when the tasks end (`ledger_eq`).  A task whose handle is overwritten before it is
freed is lost: nobody can join it any more.  A code whose ledger is defined gets to its
end from every reachable state (`exists_finished`).
-/

set_option autoImplicit false

namespace Parallel.Lifetimes

universe u

variable {Slot : Type u}

/-! ## Ledgers -/

/-- The instructions on a slot. -/
inductive Instr (Slot : Type u) where
  | create (slot : Slot)
  | join (slot : Slot)
  | free (slot : Slot)

/-- The number of tasks, the handles, how often each task has been joined and freed, and the tasks
that are lost. -/
@[ext]
structure Ledger (Slot : Type u) where
  count : ℕ
  handle : Slot → Option ℕ
  joins : ℕ → ℕ
  frees : ℕ → ℕ
  lost : List ℕ

namespace Ledger

def start : Ledger Slot where
  count := 0
  handle _ := none
  joins _ := 0
  frees _ := 0
  lost := []

/-- The tasks of which this slot has the only handle, and that are not freed. -/
def owed (l : Ledger Slot) (slot : Slot) : Option ℕ :=
  (l.handle slot).filter fun k => l.frees k = 0

variable [DecidableEq Slot]

/-- A freed task leaves a null handle. -/
def exec (l : Ledger Slot) : Instr Slot → Option (Ledger Slot)
  | .create slot => some { l with
      count := l.count + 1
      handle := Function.update l.handle slot (some l.count)
      lost := l.lost ++ (l.owed slot).toList }
  | .join slot => (l.handle slot).map fun k =>
      { l with joins := Function.update l.joins k (l.joins k + 1) }
  | .free slot => (l.handle slot).map fun k => { l with
      handle := Function.update l.handle slot none
      frees := Function.update l.frees k (l.frees k + 1) }

def run (l : Ledger Slot) : List (Instr Slot) → Option (Ledger Slot)
  | [] => some l
  | instr :: code => (l.exec instr).bind fun l => l.run code

theorem run_append (l : Ledger Slot) (first second : List (Instr Slot)) :
    l.run (first ++ second) = (l.run first).bind fun l => l.run second := by
  induction first generalizing l with
  | nil => rfl
  | cons instr first ih =>
      rw [List.cons_append, run, run, Option.bind_assoc]
      congr 1
      funext l
      exact ih l

/-- Handles are handles of tasks. -/
def Valid (l : Ledger Slot) : Prop := ∀ slot k, l.handle slot = some k → k < l.count

theorem lt_of_update {handle : Slot → Option ℕ} {slot : Slot} {value : Option ℕ} {n : ℕ}
    (old : ∀ other k, handle other = some k → k < n) (new : ∀ k, value = some k → k < n)
    (other : Slot) (k : ℕ) (named : Function.update handle slot value other = some k) : k < n := by
  rcases eq_or_ne other slot with rfl | different
  · exact new k ((Function.update_self other value handle).symm.trans named)
  · exact old other k ((Function.update_of_ne different value handle).symm.trans named)

theorem Valid.exec {l l' : Ledger Slot} (valid : l.Valid) {instr : Instr Slot}
    (executed : l.exec instr = some l') : l'.Valid := by
  cases instr with
  | create slot =>
      obtain rfl := Option.some.inj executed
      refine lt_of_update (fun other k named => Nat.lt_succ_of_lt (valid other k named)) ?_
      rintro k ⟨⟩
      exact Nat.lt_succ_self _
  | join slot =>
      obtain ⟨k, -, rfl⟩ := Option.map_eq_some_iff.mp executed
      exact valid
  | free slot =>
      obtain ⟨k, -, rfl⟩ := Option.map_eq_some_iff.mp executed
      exact lt_of_update valid nofun

end Ledger

/-! ## Runs -/

/-- The ledger, what the main task has still to do, and the tasks that have ended. -/
structure State (Slot : Type u) where
  ledger : Ledger Slot
  code : List (Instr Slot)
  ended : ℕ → Bool

/-- The main task goes on, or a task ends. -/
inductive Event where
  | main
  | finish (k : ℕ)

/-- The slot whose task must have ended before the instruction: a free waits as a join does. -/
def Instr.awaits : Instr Slot → Option Slot
  | .create _ => none
  | .join slot | .free slot => some slot

/-- The main task must wait. -/
def State.Waits (s : State Slot) (instr : Instr Slot) : Prop :=
  ∃ k ∈ instr.awaits.bind s.ledger.handle, s.ended k = false

instance (s : State Slot) : DecidablePred s.Waits := fun _ =>
  inferInstanceAs (Decidable (∃ k ∈ _, _))

variable [DecidableEq Slot]

def State.step (s : State Slot) : Event → Option (State Slot)
  | .main =>
      match s.code with
      | [] => none
      | instr :: rest =>
          if s.Waits instr then none
          else (s.ledger.exec instr).map fun l => { s with ledger := l, code := rest }
  | .finish k =>
      if k < s.ledger.count ∧ s.ended k = false then
        some { s with ended := Function.update s.ended k true }
      else none

/-- The main task runs a code. -/
def lifetimes (code : List (Instr Slot)) : Machine (State Slot) Event where
  init s := s = ⟨.start, code, fun _ => false⟩
  step := State.step

section Runs

variable {code : List (Instr Slot)} {s : State Slot}

/-- **The ledger is that of the code that has run.** -/
theorem ledger_eq (reachable : (lifetimes code).Reachable Machine.anyEvent s) :
    s.ledger.Valid ∧ ∃ done, code = done ++ s.code ∧ Ledger.start.run done = some s.ledger := by
  refine Machine.invariant (fun s : State Slot => s.ledger.Valid ∧
    ∃ done, code = done ++ s.code ∧ Ledger.start.run done = some s.ledger) ?_ ?_ reachable
  · rintro _ rfl
    exact ⟨nofun, [], rfl, rfl⟩
  · rintro s event t - - ⟨valid, done, all, ran⟩ step
    cases event with
    | main =>
        change s.step .main = some t at step
        rw [State.step] at step
        split at step
        next => cases step
        next instr rest next =>
          split at step
          next => cases step
          next =>
            obtain ⟨l, executed, rfl⟩ := Option.map_eq_some_iff.mp step
            refine ⟨valid.exec executed, done ++ [instr], ?_, ?_⟩
            · rw [all, next, List.append_assoc, List.singleton_append]
            · rw [Ledger.run_append, ran, Option.bind_some, Ledger.run, executed]
              rfl
    | finish k =>
        change s.step (.finish k) = some t at step
        rw [State.step] at step
        split at step
        next =>
          obtain rfl := Option.some.inj step
          exact ⟨valid, done, all, ran⟩
        next => cases step

/-- A task that is waited for may end. -/
theorem exists_not_waits (reachable : (lifetimes code).Reachable Machine.anyEvent s)
    (instr : Instr Slot) : ∃ events t,
      (lifetimes code).play Machine.anyEvent s events = some t ∧
      t.ledger = s.ledger ∧ t.code = s.code ∧ ¬t.Waits instr := by
  by_cases waits : s.Waits instr
  · obtain ⟨k, awaited, running⟩ := waits
    obtain ⟨slot, -, named⟩ := Option.bind_eq_some_iff.mp awaited
    have below := (ledger_eq reachable).1 slot k named
    have ends : (lifetimes code).play Machine.anyEvent s [.finish k] =
        some { s with ended := Function.update s.ended k true } := by
      rw [Machine.play_cons trivial (if_pos ⟨below, running⟩)]
      rfl
    refine ⟨[.finish k], _, ends, rfl, rfl, ?_⟩
    rintro ⟨j, other, stillRuns⟩
    obtain rfl : k = j := Option.some.inj (awaited.symm.trans other)
    exact absurd ((Function.update_self k true s.ended).symm.trans stillRuns) nofun
  · exact ⟨[], s, rfl, rfl, rfl, waits⟩

/-- **A code with a ledger can get to its end** from every reachable state. -/
theorem exists_finished {l : Ledger Slot} (ran : Ledger.start.run code = some l)
    (reachable : (lifetimes code).Reachable Machine.anyEvent s) :
    ∃ events t, (lifetimes code).play Machine.anyEvent s events = some t ∧ t.code = [] ∧
      t.ledger = l := by
  obtain ⟨-, done, all, before⟩ := ledger_eq reachable
  have rest : s.ledger.run s.code = some l := by
    rw [all, Ledger.run_append, before, Option.bind_some] at ran
    exact ran
  clear ran before all done
  generalize left : s.code = todo at rest
  induction todo generalizing s with
  | nil => exact ⟨[], s, rfl, left, Option.some.inj rest⟩
  | cons instr todo ih =>
      obtain ⟨ends, t, played, sameLedger, sameCode, free⟩ := exists_not_waits reachable instr
      rw [Ledger.run, ← sameLedger] at rest
      obtain ⟨l', executed, rest⟩ := Option.bind_eq_some_iff.mp rest
      have step : (lifetimes code).step t .main = some { t with ledger := l', code := todo } := by
        change t.step .main = _
        rw [State.step, sameCode, left]
        dsimp only
        rw [if_neg free, executed, Option.map_some]
      obtain ⟨events, u, further, finished⟩ :=
        ih ((reachable.of_play played).next trivial step) rfl rest
      exact ⟨ends ++ .main :: events, u,
        Machine.play_append played ((Machine.play_cons trivial step).trans further), finished⟩

/-- The ledger at the end of a code. -/
theorem ledger_of_finished {l : Ledger Slot} (ran : Ledger.start.run code = some l)
    (reachable : (lifetimes code).Reachable Machine.anyEvent s) (finished : s.code = []) :
    s.ledger = l := by
  obtain ⟨-, done, all, before⟩ := ledger_eq reachable
  rw [finished, List.append_nil] at all
  rw [← all, ran] at before
  exact (Option.some.inj before).symm

end Runs

end Parallel.Lifetimes
