import Mathlib.Data.List.Chain
import ArgobotsReduction.Containers.LinkedChain
import ArgobotsReduction.Parallel.Machine

/-!
# The waitlist

Callers that wait are linked in a list by their descriptors: a ULT by its own, and an
external thread or a timed wait by a dummy one.  Only timed waits set the link to
the descriptor before them, because only they may leave the list from the middle.

All operations run under the lock of the object that has the list.  Besides them, a
waiter that has been woken goes on, and one that sleeps on the futex may wake
up by itself and go back to sleep.
-/

set_option autoImplicit false

namespace ArgobotsReduction.Sync.Waitlist

open Parallel Containers

universe u

/-- The kinds of waits.  A caller that cannot yield sleeps on the futex, unless
it waits actively. -/
inductive Kind where
  | ult
  | external (sleeps : Bool)
  | timed (sleeps : Bool)
  deriving DecidableEq

def Kind.isTimed : Kind → Bool
  | .timed _ => true
  | _ => false

def Kind.sleeps : Kind → Bool
  | .ult => false
  | .external sleeps | .timed sleeps => sleeps

/-- `ABTI_waitlist` and the descriptors.  `ready` is the state of a descriptor, `waits`
the wait its caller is in, and `timedOut` what its last timed wait has returned.
`wakes` counts how often the caller has been woken in its last wait, which began
at the time `since`. -/
structure State (ι : Type u) where
  head : Option ι
  tail : Option ι
  next : ι → Option ι
  prev : ι → Option ι
  ready : ι → Bool
  sleeping : ι → Bool
  waits : ι → Option Kind
  timedOut : ι → Option Bool
  wakes : ι → ℕ
  since : ι → ℕ
  clock : ℕ

variable {ι : Type u}

namespace State

/-- The caller is in a timed wait. -/
def isTimed (s : State ι) (n : ι) : Bool := (s.waits n).any Kind.isTimed

/-- The caller sleeps while it waits. -/
def sleeps (s : State ι) (n : ι) : Bool := (s.waits n).any Kind.sleeps

variable [DecidableEq ι]

/-- The descriptor becomes the last one. -/
def append (s : State ι) (n : ι) (timed : Bool) : Option (State ι) :=
  let next := Function.update s.next n none
  match s.head with
  | none => some { s with
      next := next
      prev := if timed then Function.update s.prev n none else s.prev
      head := some n
      tail := some n }
  | some _ =>
      s.tail.map fun last => { s with
        next := Function.update next last (some n)
        prev := if timed then Function.update s.prev n (some last) else s.prev
        tail := some n }

/-- The first part of `ABTI_waitlist_wait_and_unlock` and of
`ABTI_waitlist_wait_timedout_and_unlock`, until the lock is released. -/
def wait (s : State ι) (n : ι) (kind : Kind) : Option (State ι) :=
  (s.append n kind.isTimed).map fun t => { t with
    ready := Function.update t.ready n false
    sleeping := Function.update t.sleeping n kind.sleeps
    waits := Function.update t.waits n (some kind)
    timedOut := Function.update t.timedOut n none
    wakes := Function.update t.wakes n 0
    since := Function.update t.since n t.clock
    clock := t.clock + 1 }

/-- The wait is over.  A timed wait returns whether it has timed out. -/
def leave (s : State ι) (n : ι) (timedOut : Option Bool) : State ι :=
  { s with
    waits := Function.update s.waits n none
    timedOut := Function.update s.timedOut n timedOut }

/-- A descriptor leaves the list before it has been woken. -/
def remove (s : State ι) (n : ι) : Option (State ι) :=
  if s.head = some n then
    match s.next n with
    | none => if s.tail = some n then some { s with head := none, tail := none } else none
    | some after => some { s with head := some after }
  else
    s.prev n |>.bind fun before =>
      let next := Function.update s.next before (s.next n)
      match s.next n with
      | some after => some { s with
          next := next
          prev := Function.update s.prev after (some before) }
      | none => if s.tail = some n then some { s with next := next, tail := some before } else none

/-- The part of `ABTI_waitlist_wait_timedout_and_unlock` from `timeout` on. -/
def timeout (s : State ι) (n : ι) : Option (State ι) :=
  if s.ready n then some (s.leave n (some false))
  else (s.remove n).map fun t => t.leave n (some true)

/-- `ABTI_ythread_resume_and_push`, or the store of the state of a dummy descriptor. -/
def resume (s : State ι) (n : ι) : State ι :=
  { s with
    next := Function.update s.next n none
    ready := Function.update s.ready n true
    wakes := Function.update s.wakes n (s.wakes n + 1) }

/-- `ABTD_futex_broadcast`, if some caller that has been woken is not a ULT -/
def futexBroadcast (s : State ι) (wakeup : Bool) : State ι :=
  { s with sleeping := if wakeup then fun _ => false else s.sleeping }

/-- `ABTI_waitlist_signal` -/
def signal (s : State ι) : State ι :=
  match s.head with
  | none => s
  | some n =>
      { (s.resume n).futexBroadcast (s.waits n != some .ult) with
        head := s.next n
        tail := if s.next n = none then none else s.tail }

/-- The loop of `ABTI_waitlist_broadcast`, from a descriptor on. -/
def drain : ℕ → State ι → ι → Bool → Option (State ι × Bool)
  | 0, _, _, _ => none
  | fuel + 1, s, n, wakeup =>
      let wakeup := wakeup || s.waits n != some .ult
      match s.next n with
      | none => some (s.resume n, wakeup)
      | some m => drain fuel (s.resume n) m wakeup

/-- `ABTI_waitlist_broadcast`.  The loop runs at most once for every wait so far. -/
def broadcast (s : State ι) : Option (State ι) :=
  match s.head with
  | none => some s
  | some n =>
      (drain s.clock s n false).map fun result =>
        { result.1 with head := none, tail := none }.futexBroadcast result.2

end State

/-- What can happen. -/
inductive Event (ι : Type u) where
  | wait (n : ι) (kind : Kind)
  | timeout (n : ι)
  | signal
  | broadcast
  | leave (n : ι)
  | wakeUp (n : ι)
  | sleep (n : ι)

/-- When an event can happen.  A caller waits once at a time, only a timed wait may time out,
only a caller whose descriptor is ready goes on, and only one whose descriptor is not goes back to
sleep. -/
def State.Allows (s : State ι) : Event ι → Prop
  | .wait n _ => s.waits n = none
  | .timeout n => s.isTimed n = true ∧ s.sleeping n = false
  | .signal => True
  | .broadcast => True
  | .leave n => s.waits n ≠ none ∧ s.ready n = true ∧ s.sleeping n = false
  | .wakeUp n => s.sleeping n = true
  | .sleep n => s.sleeps n = true ∧ s.ready n = false ∧ s.sleeping n = false

instance (s : State ι) : (event : Event ι) → Decidable (s.Allows event)
  | .wait n _ => inferInstanceAs (Decidable (s.waits n = none))
  | .timeout _ => inferInstanceAs (Decidable (_ ∧ _))
  | .signal => .isTrue trivial
  | .broadcast => .isTrue trivial
  | .leave n => inferInstanceAs (Decidable (s.waits n ≠ none ∧ _))
  | .wakeUp n => inferInstanceAs (Decidable (s.sleeping n = true))
  | .sleep _ => inferInstanceAs (Decidable (_ ∧ _))

/-- The effect of an event. -/
def State.apply [DecidableEq ι] (s : State ι) : Event ι → Option (State ι)
  | .wait n kind => s.wait n kind
  | .timeout n => s.timeout n
  | .signal => some s.signal
  | .broadcast => s.broadcast
  | .leave n => some (s.leave n (if s.isTimed n then some false else none))
  | .wakeUp n => some { s with sleeping := Function.update s.sleeping n false }
  | .sleep n => some { s with sleeping := Function.update s.sleeping n true }

/-- `ABTI_waitlist_init`, when nobody waits. -/
structure Starts (s : State ι) : Prop where
  head : s.head = none
  tail : s.tail = none
  waits : ∀ n, s.waits n = none
  timedOut : ∀ n, s.timedOut n = none
  wakes : ∀ n, s.wakes n = 0
  sleeping : ∀ n, s.sleeping n = false

/-- The lists with their events. -/
def waitlists (ι : Type u) [DecidableEq ι] : Machine (State ι) (Event ι) where
  init := Starts
  step s event := if s.Allows event then s.apply event else none

end ArgobotsReduction.Sync.Waitlist
