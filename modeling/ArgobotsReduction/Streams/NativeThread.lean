import ArgobotsReduction.Parallel.Inevitable

/-!
# The native thread of an execution stream

A secondary execution stream has a native thread of its own.  The thread runs the root ULT, and
that runs the main scheduler until its ULT has terminated.  Then the thread does not end: it
waits on the condition variable of its context, for a request to run once more or to terminate.
`ABT_xstream_join` waits for the thread on the same condition variable, `ABT_xstream_revive` and
`ABT_xstream_free` send the requests.

What is done under the lock of the context is one turn, and so is every other access to shared
variables.  A thread that waits on the condition variable may be woken spuriously.  One caller
at a time uses the stream.  The main scheduler may stop at any moment, and before that it may
yield to the root ULT as often as it likes.

`ABT_xstream_revive` only checks that the ULT of the main scheduler has terminated.  When it is
called as it should be, on a stream that has been joined,

* no assertion fails, and everything that the thread works on is still there
  (`context_safe`);
* a stream that is joined has run once for its creation and once for every revival
  (`joined_rounds`);
* no wake-up is lost: once the main scheduler has stopped, every call returns
  (`call_returns`).
-/

set_option autoImplicit false

namespace ArgobotsReduction.Streams.NativeThread

open Parallel

/-- `ABTD_xstream_context_state` -/
inductive ContextState where
  | running
  | waiting
  | reqJoin
  | reqTerminate
  | uninit
  deriving DecidableEq

/-- The state of the ULT of the main scheduler -/
inductive SchedState where
  | ready
  | running
  | terminated
  deriving DecidableEq

/-- The places of the native thread, in `xstream_context_thread_func` and in `thread_root_func` -/
inductive Native where
  | begins
  | roots
  | pops
  | runsSched
  | tests
  | finishes
  | returned
  | sleeps
  | ended
  | failed
  deriving DecidableEq

/-- The functions that call `xstream_join` -/
inductive Call where
  | join
  | free
  deriving DecidableEq

/-- The places of the caller, in `xstream_join`, `ABT_xstream_revive` and `ABTI_xstream_free` -/
inductive Caller where
  | idle
  | joinsSched (call : Call)
  | joinsContext (call : Call)
  | sleeps (call : Call)
  | checks (call : Call)
  | revivesSched
  | revivesState
  | revivesContext
  | freesRoot
  | testsContext
  | terminates
  | joinsThread
  | freed
  | failed
  deriving DecidableEq

/-- The context, the ULT of the main scheduler, whether that is in the root pool, and whether the
stream is terminated.  The others are the places, who waits on the condition variable, whether
the stream has been joined since it ran, and counters. -/
structure State where
  context : ContextState
  sched : SchedState
  inRootPool : Bool
  terminated : Bool
  rootFreed : Bool
  native : Native
  caller : Caller
  nativeAsleep : Bool
  callerAsleep : Bool
  joined : Bool
  starts : ℕ
  returns : ℕ
  revives : ℕ
  deriving DecidableEq

/-- What can happen -/
inductive Event where
  | native
  | nativeSpurious
  /-- The main scheduler yields. -/
  | yields
  /-- The main scheduler stops, and its ULT terminates. -/
  | stops
  | caller
  | callerSpurious
  | join
  | revive
  | free
  deriving DecidableEq

namespace State

/-- `xstream_context_thread_func`, when it holds the lock after a wait -/
def recheck (s : State) : State :=
  match s.context with
  | .waiting => { s with nativeAsleep := true }
  | .reqTerminate => { s with native := .ended }
  | .running | .reqJoin => { s with native := .roots, starts := s.starts + 1 }
  | .uninit => { s with native := .failed }

/-- A turn of the native thread -/
def nativeTurn (s : State) : Option State :=
  match s.native with
  | .begins =>
      some (if s.context = .running then { s with native := .roots, starts := s.starts + 1 }
        else { s with native := .failed })
  | .roots => some { s with native := if s.terminated then .failed else .pops }
  | .pops =>
      some (if s.inRootPool then
          { s with inRootPool := false, sched := .running, native := .runsSched }
        else { s with native := .tests })
  | .runsSched => none
  | .tests => some { s with native := if s.sched = .terminated then .finishes else .pops }
  | .finishes => some { s with terminated := true, native := .returned }
  | .returned =>
      some { s with
        context := .waiting
        native := .sleeps
        nativeAsleep := true
        callerAsleep := if s.context = .reqJoin then false else s.callerAsleep
        returns := s.returns + 1 }
  | .sleeps => if s.nativeAsleep then none else some s.recheck
  | .ended | .failed => none

/-- A turn of the caller.  The native thread is the only one that may wait on the condition
variable when the caller signals. -/
def callerTurn (s : State) : Option State :=
  match s.caller with
  | .idle => none
  | .joinsSched call =>
      if s.sched = .terminated then some { s with caller := .joinsContext call } else none
  | .joinsContext call =>
      some (match s.context with
        | .waiting => { s with caller := .checks call }
        | .running =>
            { s with context := .reqJoin, callerAsleep := true, caller := .sleeps call }
        | _ => { s with caller := .failed })
  | .sleeps call =>
      if s.callerAsleep then none
      else some (match s.context with
        | .reqJoin => { s with callerAsleep := true }
        | .waiting => { s with caller := .checks call }
        | _ => { s with caller := .failed })
  | .checks call =>
      some (if s.terminated then
          match call with
          | .join => { s with joined := true, caller := .idle }
          | .free => { s with caller := .freesRoot }
        else { s with caller := .failed })
  | .revivesSched => some { s with sched := .ready, inRootPool := true, caller := .revivesState }
  | .revivesState => some { s with terminated := false, caller := .revivesContext }
  | .revivesContext =>
      some (if s.context = .waiting then
          { s with
            context := .running
            nativeAsleep := false
            joined := false
            revives := s.revives + 1
            caller := .idle }
        else { s with caller := .failed })
  | .freesRoot => some { s with rootFreed := true, caller := .testsContext }
  | .testsContext =>
      some { s with caller := if s.context = .uninit then .freed else .terminates }
  | .terminates =>
      some (if s.context = .waiting then
          { s with context := .reqTerminate, nativeAsleep := false, caller := .joinsThread }
        else { s with caller := .failed })
  | .joinsThread => if s.native = .ended then some { s with caller := .freed } else none
  | .freed | .failed => none

/-- The effect of an event, if it can happen -/
def step (s : State) : Event → Option State
  | .native => s.nativeTurn
  | .nativeSpurious =>
      if s.native = .sleeps ∧ s.nativeAsleep then some { s with nativeAsleep := false } else none
  | .yields =>
      if s.native = .runsSched then
        some { s with sched := .ready, inRootPool := true, native := .tests }
      else none
  | .stops =>
      if s.native = .runsSched then some { s with sched := .terminated, native := .tests }
      else none
  | .caller => s.callerTurn
  | .callerSpurious => if s.callerAsleep then some { s with callerAsleep := false } else none
  | .join => if s.caller = .idle then some { s with caller := .joinsSched .join } else none
  | .free => if s.caller = .idle then some { s with caller := .joinsSched .free } else none
  | .revive =>
      if s.caller = .idle then
        some (if s.sched = .terminated then { s with caller := .revivesSched } else s)
      else none

end State

/-- `xstream_create`, when it has succeeded -/
def created : State where
  context := .running
  sched := .ready
  inRootPool := true
  terminated := false
  rootFreed := false
  native := .begins
  caller := .idle
  nativeAsleep := false
  callerAsleep := false
  joined := false
  starts := 0
  returns := 0
  revives := 0

/-- The stream -/
def stream : Machine State Event where
  init s := s = created
  step := State.step

/-- A stream whose main scheduler has terminated is revived after it has been joined. -/
def Documented (s : State) : Event → Prop
  | .revive => s.sched = .terminated → s.joined = true
  | _ => True

instance (s : State) : (event : Event) → Decidable (Documented s event)
  | .revive => inferInstanceAs (Decidable (_ → _))
  | .native | .nativeSpurious | .yields | .stops | .caller | .callerSpurious | .join | .free =>
      .isTrue trivial

/-! ## What holds -/

/-- The ULT of the main scheduler is to run. -/
def Ready (s : State) : Prop :=
  s.sched = .ready ∧ s.inRootPool = true ∧ s.terminated = false

/-- The native thread works on the root pool, and a caller may wait for it. -/
def Working (s : State) : Prop := s.context = .running ∨ s.context = .reqJoin

/-- The ULT of the main scheduler has terminated, and the native thread still works. -/
def Stopped (s : State) : Prop :=
  s.sched = .terminated ∧ s.inRootPool = false ∧ Working s

/-- The native thread waits for a request, and nothing is left of what it ran. -/
def Parked (s : State) : Prop :=
  s.context = .waiting ∧ s.sched = .terminated ∧ s.inRootPool = false ∧ s.terminated = true

/-- What the native thread knows at its place -/
def NativeKnows (s : State) : Prop :=
  match s.native with
  | .begins | .roots | .pops => s.context = .running ∧ Ready s
  | .runsSched =>
      s.context = .running ∧ s.sched = .running ∧ s.inRootPool = false ∧ s.terminated = false
  | .tests => (s.context = .running ∧ Ready s) ∨ (Stopped s ∧ s.terminated = false)
  | .finishes => Stopped s ∧ s.terminated = false
  | .returned => Stopped s ∧ s.terminated = true
  | .sleeps => s.context = .waiting ∨
      s.nativeAsleep = false ∧ (s.context = .reqTerminate ∨ s.context = .running ∧ Ready s)
  | .ended => s.context = .reqTerminate
  | .failed => False

/-- What the caller knows at its place -/
def CallerKnows (s : State) : Prop :=
  match s.caller with
  | .idle => (s.context = .running ∧ s.joined = false) ∨ Parked s
  | .joinsSched _ => s.context = .running ∨ Parked s
  | .joinsContext _ => (s.context = .running ∧ s.sched = .terminated) ∨ Parked s
  | .sleeps _ =>
      (s.context = .reqJoin ∧ s.sched = .terminated) ∨ (Parked s ∧ s.callerAsleep = false)
  | .checks _ | .revivesSched | .freesRoot | .testsContext | .terminates => Parked s
  | .revivesState =>
      s.context = .waiting ∧ s.sched = .ready ∧ s.inRootPool = true ∧ s.terminated = true
  | .revivesContext => s.context = .waiting ∧ Ready s
  | .joinsThread | .freed => s.context = .reqTerminate
  | .failed => False

/-- The places of the caller at which the root ULT and the root pool are freed -/
def Caller.Frees : Caller → Prop
  | .testsContext | .terminates | .joinsThread | .freed => True
  | _ => False

/-- The thread has been asked to run, and has not begun. -/
def State.pending (s : State) : ℕ :=
  if s.native = .begins ∨ s.native = .sleeps ∧ s.context = .running then 1 else 0

/-- The thread is between the start and the return of its function. -/
def State.active (s : State) : ℕ :=
  if s.native = .begins ∨ s.native = .sleeps ∨ s.native = .ended then 0 else 1

/-- What holds in every state -/
structure Fine (s : State) : Prop where
  native : NativeKnows s
  caller : CallerKnows s
  asleep : s.callerAsleep = true → ∃ call, s.caller = .sleeps call
  rootFreed : s.rootFreed = true → s.caller.Frees
  freed : s.caller = .freed → s.native = .ended
  starts : s.starts + s.pending = s.revives + 1
  returns : s.returns + s.active = s.starts

theorem fine_created : Fine created where
  native := ⟨rfl, rfl, rfl, rfl⟩
  caller := .inl ⟨rfl, rfl⟩
  asleep := nofun
  rootFreed := nofun
  freed := nofun
  starts := rfl
  returns := rfl

variable {s t : State}

/-- Only a sleeping thread lets the context wait for a request. -/
theorem NativeKnows.sleeps (known : NativeKnows s) (waiting : s.context = .waiting) :
    s.native = .sleeps := by
  cases place : s.native with
  | sleeps => rfl
  | begins | roots | pops | runsSched | tests | finishes | returned | ended | failed =>
      simp [NativeKnows, Stopped, Working, place, waiting] at known

/-- When the main scheduler has terminated, a thread that has not been asked to wait works. -/
theorem NativeKnows.works (known : NativeKnows s) (running : s.context = .running)
    (stopped : s.sched = .terminated) : s.native ≠ .begins ∧ s.native ≠ .sleeps := by
  constructor
  · intro begins
    simp [NativeKnows, Ready, begins, stopped] at known
  · intro sleeps
    simp [NativeKnows, Ready, sleeps, stopped, running] at known

/-- **Where the caller may be while the native thread works** -/
theorem CallerKnows.of_working (known : CallerKnows s) (working : Working s) :
    (s.context = .running ∧
        (s.caller = .idle ∧ s.joined = false ∨ (∃ call, s.caller = .joinsSched call) ∨
          (∃ call, s.caller = .joinsContext call) ∧ s.sched = .terminated)) ∨
      (s.context = .reqJoin ∧ s.sched = .terminated ∧ ∃ call, s.caller = .sleeps call) := by
  rcases working with running | requested
  · cases place : s.caller <;> simp_all [CallerKnows, Parked]
  · cases place : s.caller <;> simp_all [CallerKnows, Parked]

/-- While the ULT of the main scheduler has not terminated, the caller is not beyond it. -/
theorem CallerKnows.of_unstopped (known : CallerKnows s) (running : s.context = .running)
    (unstopped : s.sched ≠ .terminated) :
    (s.caller = .idle ∧ s.joined = false) ∨ ∃ call, s.caller = .joinsSched call := by
  rcases known.of_working (.inl running) with ⟨-, idle | joins | ⟨-, stopped⟩⟩ | ⟨requested, -⟩
  · exact .inl idle
  · exact .inr joins
  · exact absurd stopped unstopped
  · rw [running] at requested
    cases requested

/-- The caller keeps what it knows when only the ULT of the main scheduler moves. -/
theorem CallerKnows.of_same (known : CallerKnows s) (running : s.context = .running)
    (unstopped : s.sched ≠ .terminated) (context : t.context = s.context)
    (caller : t.caller = s.caller) (joined : t.joined = s.joined) : CallerKnows t := by
  rcases known.of_unstopped running unstopped with ⟨idle, notJoined⟩ | ⟨call, joins⟩
  · simp [CallerKnows, caller, idle, context, running, joined, notJoined]
  · simp [CallerKnows, caller, joins, context, running]

/-! ### The native thread -/

theorem Fine.begins (fine : Fine s) (place : s.native = .begins) :
    Fine { s with native := .roots, starts := s.starts + 1 } := by
  have known := fine.native
  rw [NativeKnows, place] at known
  have pending : s.pending = 1 := by simp [State.pending, place]
  have active : s.active = 0 := by simp [State.active, place]
  refine ⟨known, fine.caller, fine.asleep, fine.rootFreed, fun freed => ?_, ?_, ?_⟩
  · rw [fine.freed freed] at place
    cases place
  · rw [← fine.starts, pending]
    rfl
  · show s.returns + 1 = s.starts + 1
    rw [← fine.returns, active]

/-- A turn of a thread that works, which changes nothing but its place -/
theorem Fine.goTo (fine : Fine s) (place : Native)
    (known : NativeKnows { s with native := place })
    (before : s.native ≠ .begins ∧ s.native ≠ .sleeps ∧ s.native ≠ .ended)
    (after : place ≠ .begins ∧ place ≠ .sleeps ∧ place ≠ .ended) :
    Fine { s with native := place } where
  native := known
  caller := fine.caller
  asleep := fine.asleep
  rootFreed := fine.rootFreed
  freed freed := absurd (fine.freed freed) before.2.2
  starts := by simpa [State.pending, before, after] using fine.starts
  returns := by simpa [State.active, before, after] using fine.returns

/-- A turn that moves the ULT of the main scheduler -/
theorem Fine.moveSched (fine : Fine s) (place : Native) (sched : SchedState) (inRootPool : Bool)
    (running : s.context = .running) (unstopped : s.sched ≠ .terminated)
    (known : NativeKnows { s with native := place, sched := sched, inRootPool := inRootPool })
    (before : s.native ≠ .begins ∧ s.native ≠ .sleeps ∧ s.native ≠ .ended)
    (after : place ≠ .begins ∧ place ≠ .sleeps ∧ place ≠ .ended) :
    Fine { s with native := place, sched := sched, inRootPool := inRootPool } where
  native := known
  caller := fine.caller.of_same running unstopped rfl rfl rfl
  asleep := fine.asleep
  rootFreed := fine.rootFreed
  freed freed := absurd (fine.freed freed) before.2.2
  starts := by simpa [State.pending, before, after] using fine.starts
  returns := by simpa [State.active, before, after] using fine.returns

/-- The stream is terminated. -/
theorem Fine.finishes (fine : Fine s) (place : s.native = .finishes) :
    Fine { s with terminated := true, native := .returned } := by
  have known := fine.native
  rw [NativeKnows, place] at known
  obtain ⟨stopped, -⟩ := known
  refine ⟨⟨stopped, rfl⟩, ?_, fine.asleep, fine.rootFreed, fun freed => ?_, ?_, ?_⟩
  · rcases fine.caller.of_working stopped.2.2 with
      ⟨running, ⟨idle, notJoined⟩ | ⟨call, joins⟩ | ⟨⟨call, joins⟩, terminated⟩⟩ |
        ⟨requested, terminated, call, sleeps⟩
    · simp [CallerKnows, idle, running, notJoined]
    · simp [CallerKnows, joins, running]
    · simp [CallerKnows, joins, running, terminated]
    · simp [CallerKnows, sleeps, requested, terminated]
  · rw [fine.freed freed] at place
    cases place
  · simpa [State.pending, place] using fine.starts
  · simpa [State.active, place] using fine.returns

/-- **The function of the thread has returned.** Nobody has to wait for it any more. -/
theorem Fine.returned (fine : Fine s) (place : s.native = .returned) :
    Fine { s with
      context := .waiting
      native := .sleeps
      nativeAsleep := true
      callerAsleep := if s.context = .reqJoin then false else s.callerAsleep
      returns := s.returns + 1 } := by
  have known := fine.native
  rw [NativeKnows, place] at known
  obtain ⟨⟨sched, empty, working⟩, terminated⟩ := known
  refine ⟨.inl rfl, ?_, fun asleep => ?_, fine.rootFreed, fun freed => ?_, ?_, ?_⟩
  · rcases fine.caller.of_working working with
      ⟨running, ⟨idle, notJoined⟩ | ⟨call, joins⟩ | ⟨⟨call, joins⟩, -⟩⟩ |
        ⟨requested, -, call, sleeps⟩
    · simp [CallerKnows, Parked, idle, sched, empty, terminated]
    · simp [CallerKnows, Parked, joins, sched, empty, terminated]
    · simp [CallerKnows, Parked, joins, sched, empty, terminated]
    · simp [CallerKnows, Parked, sleeps, requested, sched, empty, terminated]
  · split at asleep
    · cases asleep
    · exact fine.asleep asleep
  · rw [fine.freed freed] at place
    cases place
  · simpa [State.pending, place] using fine.starts
  · have active : s.active = 1 := by simp [State.active, place]
    have returns := fine.returns
    rw [active] at returns
    exact returns

/-- The native thread, after a wait and with the lock -/
theorem Fine.recheck (fine : Fine s) (place : s.native = .sleeps) : Fine s.recheck := by
  have known := fine.native
  rw [NativeKnows, place] at known
  have notFreed : s.caller ≠ .freed := by
    intro freed
    rw [fine.freed freed] at place
    cases place
  have starts := fine.starts
  have returns := fine.returns
  rw [State.recheck]
  split
  · next waiting =>
      refine ⟨?_, fine.caller, fine.asleep, fine.rootFreed, fine.freed, starts, returns⟩
      simp [NativeKnows, place, waiting]
  · next terminate =>
      refine ⟨terminate, fine.caller, fine.asleep, fine.rootFreed, fun _ => rfl, ?_, ?_⟩
      · simpa [State.pending, place, terminate] using starts
      · simpa [State.active, place] using returns
  · next running =>
      have ready : s.nativeAsleep = false ∧ Ready s := by simpa [running] using known
      refine ⟨⟨running, ready.2⟩, fine.caller, fine.asleep, fine.rootFreed,
        fun freed => absurd freed notFreed, ?_, ?_⟩
      · simpa [State.pending, place, running] using starts
      · simpa [State.active, place] using returns
  · next requested => simp [requested] at known
  · next uninit => simp [uninit] at known

/-- **A turn of the native thread** -/
theorem Fine.nativeTurn (fine : Fine s) (taken : s.nativeTurn = some t) : Fine t := by
  have known := fine.native
  rw [State.nativeTurn] at taken
  cases place : s.native with
  | begins =>
      rw [NativeKnows, place] at known
      rw [place, if_pos known.1] at taken
      cases taken
      exact fine.begins place
  | roots =>
      rw [NativeKnows, place] at known
      obtain ⟨running, sched, inPool, going⟩ := known
      rw [place] at taken
      cases taken
      rw [if_neg (by simp [going])]
      exact fine.goTo .pops ⟨running, sched, inPool, going⟩ (by simp [place]) (by decide)
  | pops =>
      rw [NativeKnows, place] at known
      obtain ⟨running, sched, inPool, going⟩ := known
      rw [place, if_pos inPool] at taken
      cases taken
      exact fine.moveSched .runsSched .running false running (by simp [sched])
        ⟨running, rfl, rfl, going⟩ (by simp [place]) (by decide)
  | tests =>
      rw [NativeKnows, place] at known
      rw [place] at taken
      cases taken
      rcases known with ⟨running, ready⟩ | stopped
      · rw [if_neg (by simp [ready.1])]
        exact fine.goTo .pops ⟨running, ready⟩ (by simp [place]) (by decide)
      · rw [if_pos stopped.1.1]
        exact fine.goTo .finishes stopped (by simp [place]) (by decide)
  | finishes =>
      rw [place] at taken
      cases taken
      exact fine.finishes place
  | returned =>
      rw [place] at taken
      cases taken
      exact fine.returned place
  | sleeps =>
      rw [place] at taken
      obtain ⟨-, same⟩ := Option.ite_none_left_eq_some.mp taken
      cases same
      exact fine.recheck place
  | runsSched | ended | failed =>
      rw [place] at taken
      cases taken

theorem Fine.yields (fine : Fine s) (place : s.native = .runsSched) :
    Fine { s with sched := .ready, inRootPool := true, native := .tests } := by
  have known := fine.native
  rw [NativeKnows, place] at known
  obtain ⟨running, sched, -, going⟩ := known
  exact fine.moveSched .tests .ready true running (by simp [sched])
    (.inl ⟨running, rfl, rfl, going⟩) (by simp [place]) (by decide)

theorem Fine.stops (fine : Fine s) (place : s.native = .runsSched) :
    Fine { s with sched := .terminated, native := .tests } := by
  have known := fine.native
  rw [NativeKnows, place] at known
  obtain ⟨running, sched, empty, going⟩ := known
  exact fine.moveSched .tests .terminated s.inRootPool running (by simp [sched])
    (.inr ⟨⟨rfl, empty, .inl running⟩, going⟩) (by simp [place]) (by decide)

/-! ### The caller -/

/-- Only a caller that sleeps is counted as asleep. -/
theorem Fine.notAsleep (fine : Fine s) {place : Caller} (there : s.caller = place)
    (awake : ∀ call, place ≠ .sleeps call) : s.callerAsleep ≠ true := by
  intro asleep
  obtain ⟨call, sleeps⟩ := fine.asleep asleep
  exact awake call (there.symm.trans sleeps)

/-- The root ULT and the root pool exist until the caller frees them. -/
theorem Fine.notFreed (fine : Fine s) {place : Caller} (there : s.caller = place)
    (before : ¬place.Frees) : s.rootFreed ≠ true := fun freed =>
  before (there ▸ fine.rootFreed freed)

/-- A turn that changes nothing but the place of the caller and what it remembers -/
theorem Fine.callerGoTo (fine : Fine s) (place : Caller) (joined : Bool)
    (known : CallerKnows { s with caller := place, joined := joined })
    (awake : s.callerAsleep ≠ true) (frees : s.caller.Frees → place.Frees)
    (freed : place = .freed → s.native = .ended) :
    Fine { s with caller := place, joined := joined } where
  native := fine.native
  caller := known
  asleep asleep := absurd asleep awake
  rootFreed freed := frees (fine.rootFreed freed)
  freed := freed
  starts := fine.starts
  returns := fine.returns

/-- **A caller asks to be woken**, since the native thread still works. -/
theorem Fine.requests (fine : Fine s) {call : Call} (place : s.caller = .joinsContext call)
    (running : s.context = .running) (stopped : s.sched = .terminated) :
    Fine { s with context := .reqJoin, callerAsleep := true, caller := .sleeps call } := by
  have known := fine.native
  have working := known.works running stopped
  refine ⟨?_, .inl ⟨rfl, stopped⟩, fun _ => ⟨call, rfl⟩,
    fun freed => absurd freed (fine.notFreed place id), nofun, ?_, fine.returns⟩
  · cases native : s.native <;> simp_all [NativeKnows, Stopped, Working, Ready]
  · simpa [State.pending, working] using fine.starts

/-- **A woken caller** finds out whether it has to go on waiting. -/
theorem Fine.rechecks (fine : Fine s) {call : Call} (place : s.caller = .sleeps call)
    (requested : s.context = .reqJoin) : Fine { s with callerAsleep := true } := by
  have known := fine.caller
  rw [CallerKnows, place] at known
  refine ⟨fine.native, ?_, fun _ => ⟨call, place⟩, fine.rootFreed, fine.freed, fine.starts,
    fine.returns⟩
  rcases known with asked | ⟨parked, -⟩
  · simp [CallerKnows, place, asked]
  · rw [parked.1] at requested
    cases requested

/-- The ULT of the main scheduler is revived, and then the stream. -/
theorem Fine.revivesSched (fine : Fine s) (place : s.caller = .revivesSched) :
    Fine { s with sched := .ready, inRootPool := true, caller := .revivesState } := by
  have known := fine.caller
  rw [CallerKnows, place] at known
  obtain ⟨waiting, -, -, terminated⟩ := known
  refine ⟨?_, ⟨waiting, rfl, rfl, terminated⟩,
    fun asleep => absurd asleep (fine.notAsleep place nofun),
    fun freed => absurd freed (fine.notFreed place id), nofun, fine.starts, fine.returns⟩
  simp [NativeKnows, fine.native.sleeps waiting, waiting]

theorem Fine.revivesState (fine : Fine s) (place : s.caller = .revivesState) :
    Fine { s with terminated := false, caller := .revivesContext } := by
  have known := fine.caller
  rw [CallerKnows, place] at known
  obtain ⟨waiting, sched, inPool, -⟩ := known
  refine ⟨?_, ⟨waiting, sched, inPool, rfl⟩,
    fun asleep => absurd asleep (fine.notAsleep place nofun),
    fun freed => absurd freed (fine.notFreed place id), nofun, fine.starts, fine.returns⟩
  simp [NativeKnows, fine.native.sleeps waiting, waiting]

/-- **The native thread is asked to run once more.** -/
theorem Fine.revivesContext (fine : Fine s) (place : s.caller = .revivesContext)
    (waiting : s.context = .waiting) (ready : Ready s) :
    Fine { s with
      context := .running
      nativeAsleep := false
      joined := false
      revives := s.revives + 1
      caller := .idle } := by
  have sleeps := fine.native.sleeps waiting
  refine ⟨?_, .inl ⟨rfl, rfl⟩, fun asleep => absurd asleep (fine.notAsleep place nofun),
    fun freed => absurd freed (fine.notFreed place id), nofun, ?_, fine.returns⟩
  · simpa [NativeKnows, sleeps, Ready] using ready
  · have starts := fine.starts
    simp only [State.pending, sleeps, waiting, reduceCtorEq, and_false, or_self, if_false] at starts
    simp [State.pending, sleeps, ← starts]

/-- The root ULT and the root pool are freed. -/
theorem Fine.freesRoot (fine : Fine s) (place : s.caller = .freesRoot) :
    Fine { s with rootFreed := true, caller := .testsContext } := by
  have known := fine.caller
  rw [CallerKnows, place] at known
  exact ⟨fine.native, known, fun asleep => absurd asleep (fine.notAsleep place nofun),
    fun _ => trivial, nofun, fine.starts, fine.returns⟩

/-- **The native thread is asked to terminate.** -/
theorem Fine.terminates (fine : Fine s) (place : s.caller = .terminates)
    (waiting : s.context = .waiting) :
    Fine { s with context := .reqTerminate, nativeAsleep := false, caller := .joinsThread } := by
  have sleeps := fine.native.sleeps waiting
  refine ⟨?_, rfl, fun asleep => absurd asleep (fine.notAsleep place nofun), fun _ => trivial,
    nofun, ?_, fine.returns⟩
  · simp [NativeKnows, sleeps]
  · simpa [State.pending, sleeps, waiting] using fine.starts

/-- **A turn of the caller** -/
theorem Fine.callerTurn (fine : Fine s) (taken : s.callerTurn = some t) : Fine t := by
  have known := fine.caller
  rw [State.callerTurn] at taken
  cases place : s.caller with
  | idle | freed | failed =>
      rw [place] at taken
      cases taken
  | joinsSched call =>
      rw [CallerKnows, place] at known
      rw [place] at taken
      obtain ⟨stopped, same⟩ := Option.ite_none_right_eq_some.mp taken
      cases same
      exact fine.callerGoTo (.joinsContext call) s.joined
        (known.imp (fun running => ⟨running, stopped⟩) id) (fine.notAsleep place nofun)
        (by simp [place, Caller.Frees]) nofun
  | joinsContext call =>
      rw [CallerKnows, place] at known
      rw [place] at taken
      cases taken
      rcases known with ⟨running, stopped⟩ | parked
      · split
        · next waiting =>
            rw [running] at waiting
            cases waiting
        · exact fine.requests place running stopped
        · next other => exact absurd running other
      · split
        · exact fine.callerGoTo (.checks call) s.joined parked (fine.notAsleep place nofun)
            (by simp [place, Caller.Frees]) nofun
        · next running =>
            rw [parked.1] at running
            cases running
        · next other _ => exact absurd parked.1 other
  | sleeps call =>
      rw [CallerKnows, place] at known
      rw [place] at taken
      obtain ⟨woken, same⟩ := Option.ite_none_left_eq_some.mp taken
      cases same
      split
      · next requested =>
          have kept := fine.rechecks place requested
          rwa [place] at kept
      · next waiting =>
          have parked : Parked s := by simpa [waiting, woken] using known
          exact fine.callerGoTo (.checks call) s.joined parked woken
            (by simp [place, Caller.Frees]) nofun
      · next notRequested notWaiting =>
          rcases known with ⟨requested, -⟩ | ⟨parked, -⟩
          · exact absurd requested notRequested
          · exact absurd parked.1 notWaiting
  | checks call =>
      rw [CallerKnows, place] at known
      rw [place] at taken
      cases taken
      rw [if_pos known.2.2.2]
      cases call with
      | join =>
          exact fine.callerGoTo .idle true (.inr known) (fine.notAsleep place nofun)
            (by simp [place, Caller.Frees]) nofun
      | free =>
          exact fine.callerGoTo .freesRoot s.joined known (fine.notAsleep place nofun)
            (by simp [place, Caller.Frees]) nofun
  | revivesSched =>
      rw [place] at taken
      cases taken
      exact fine.revivesSched place
  | revivesState =>
      rw [place] at taken
      cases taken
      exact fine.revivesState place
  | revivesContext =>
      rw [CallerKnows, place] at known
      rw [place] at taken
      cases taken
      rw [if_pos known.1]
      exact fine.revivesContext place known.1 known.2
  | freesRoot =>
      rw [place] at taken
      cases taken
      exact fine.freesRoot place
  | testsContext =>
      rw [CallerKnows, place] at known
      rw [place] at taken
      cases taken
      rw [if_neg (by simp [known.1])]
      exact fine.callerGoTo .terminates s.joined known (fine.notAsleep place nofun)
        (fun _ => trivial) nofun
  | terminates =>
      rw [CallerKnows, place] at known
      rw [place] at taken
      cases taken
      rw [if_pos known.1]
      exact fine.terminates place known.1
  | joinsThread =>
      rw [CallerKnows, place] at known
      rw [place] at taken
      obtain ⟨ended, same⟩ := Option.ite_none_right_eq_some.mp taken
      cases same
      exact fine.callerGoTo .freed s.joined known (fine.notAsleep place nofun) (fun _ => trivial)
        fun _ => ended

/-! ### Runs -/

/-- **Every event keeps what holds.** -/
theorem Fine.step (fine : Fine s) {event : Event} (meets : Documented s event)
    (taken : s.step event = some t) : Fine t := by
  cases event with
  | native => exact fine.nativeTurn taken
  | caller => exact fine.callerTurn taken
  | nativeSpurious =>
      obtain ⟨⟨place, -⟩, same⟩ := Option.ite_none_right_eq_some.mp taken
      cases same
      have known := fine.native
      refine ⟨?_, fine.caller, fine.asleep, fine.rootFreed, fine.freed, fine.starts, fine.returns⟩
      rw [NativeKnows, place] at known
      simp only [NativeKnows, place]
      exact known.imp_right fun woken => ⟨trivial, woken.2⟩
  | yields =>
      obtain ⟨place, same⟩ := Option.ite_none_right_eq_some.mp taken
      cases same
      exact fine.yields place
  | stops =>
      obtain ⟨place, same⟩ := Option.ite_none_right_eq_some.mp taken
      cases same
      exact fine.stops place
  | callerSpurious =>
      obtain ⟨asleep, same⟩ := Option.ite_none_right_eq_some.mp taken
      cases same
      obtain ⟨call, place⟩ := fine.asleep asleep
      have known := fine.caller
      refine ⟨fine.native, ?_, nofun, fine.rootFreed, fine.freed, fine.starts, fine.returns⟩
      rw [CallerKnows, place] at known
      simp only [CallerKnows, place]
      exact known.imp_right fun parked => ⟨parked.1, trivial⟩
  | join =>
      obtain ⟨place, same⟩ := Option.ite_none_right_eq_some.mp taken
      cases same
      have known := fine.caller
      rw [CallerKnows, place] at known
      exact fine.callerGoTo (.joinsSched .join) s.joined (known.imp_left And.left)
        (fine.notAsleep place nofun) (by simp [place, Caller.Frees]) nofun
  | free =>
      obtain ⟨place, same⟩ := Option.ite_none_right_eq_some.mp taken
      cases same
      have known := fine.caller
      rw [CallerKnows, place] at known
      exact fine.callerGoTo (.joinsSched .free) s.joined (known.imp_left And.left)
        (fine.notAsleep place nofun) (by simp [place, Caller.Frees]) nofun
  | revive =>
      obtain ⟨place, same⟩ := Option.ite_none_right_eq_some.mp taken
      cases same
      split
      · next stopped =>
          have known := fine.caller
          rw [CallerKnows, place] at known
          have joined : s.joined = true := meets stopped
          have parked : Parked s := by simpa [joined] using known
          exact fine.callerGoTo .revivesSched s.joined parked (fine.notAsleep place nofun)
            (by simp [place, Caller.Frees]) nofun
      · exact fine

theorem Fine.of_reachable (reachable : stream.Reachable Documented s) : Fine s := by
  refine Machine.invariant Fine ?_ ?_ reachable
  · rintro s rfl
    exact fine_created
  · intro s event t _ meets fine taken
    exact fine.step meets taken

/-- What is freed is not needed any more. -/
theorem Fine.native_of_frees (fine : Fine s) (frees : s.caller.Frees) :
    s.native = .sleeps ∨ s.native = .ended := by
  have known := fine.caller
  have requested : s.context = .waiting ∨ s.context = .reqTerminate := by
    cases place : s.caller <;> simp_all [CallerKnows, Parked, Caller.Frees]
  have native := fine.native
  rcases requested with waiting | terminate
  · exact .inl (native.sleeps waiting)
  · cases place : s.native <;> simp_all [NativeKnows, Stopped, Working]

/-- A caller that is asleep has asked for the wake-up that the native thread still has to send. -/
theorem Fine.requested (fine : Fine s) (asleep : s.callerAsleep = true) :
    s.context = .reqJoin ∧ (s.native = .tests ∨ s.native = .finishes ∨ s.native = .returned) := by
  obtain ⟨call, sleeps⟩ := fine.asleep asleep
  have caller := fine.caller
  have native := fine.native
  have requested : s.context = .reqJoin := by
    rw [CallerKnows, sleeps] at caller
    rcases caller with ⟨requested, -⟩ | ⟨-, awake⟩
    · exact requested
    · rw [awake] at asleep
      cases asleep
  refine ⟨requested, ?_⟩
  cases place : s.native <;> simp_all [NativeKnows, Stopped, Working]

/-- **No assertion fails, and nothing is freed that the native thread uses.**  Who is asleep waits
for what has not happened yet, and the native thread has ended before its context is gone. -/
theorem context_safe (reachable : stream.Reachable Documented s) :
    s.native ≠ .failed ∧ s.caller ≠ .failed ∧
      (s.rootFreed = true → s.native = .sleeps ∨ s.native = .ended) ∧
      (s.native = .sleeps → s.nativeAsleep = true → s.context = .waiting) ∧
      (s.callerAsleep = true → s.context = .reqJoin ∧ s.native ≠ .sleeps) ∧
      (s.caller = .freed → s.native = .ended) := by
  have fine := Fine.of_reachable reachable
  have native := fine.native
  have caller := fine.caller
  refine ⟨fun failed => ?_, fun failed => ?_,
    fun freed => fine.native_of_frees (fine.rootFreed freed), fun sleeps asleep => ?_,
    fun asleep => ?_, fine.freed⟩
  · rw [NativeKnows, failed] at native
    exact native
  · rw [CallerKnows, failed] at caller
    exact caller
  · rw [NativeKnows, sleeps] at native
    rcases native with waiting | ⟨woken, -⟩
    · exact waiting
    · rw [woken] at asleep
      cases asleep
  · obtain ⟨requested, works⟩ := fine.requested asleep
    refine ⟨requested, fun sleeps => ?_⟩
    simp [sleeps] at works

/-- **A stream that has been joined** has run for its creation and once for every revival, and
nothing of it runs. -/
theorem joined_rounds (reachable : stream.Reachable Documented s) (idle : s.caller = .idle)
    (joined : s.joined = true) :
    s.returns = s.revives + 1 ∧ s.starts = s.revives + 1 ∧ s.native = .sleeps ∧ Parked s := by
  have fine := Fine.of_reachable reachable
  have known := fine.caller
  rw [CallerKnows, idle] at known
  have parked : Parked s := by simpa [joined] using known
  have sleeps := fine.native.sleeps parked.1
  have starts := fine.starts
  have returns := fine.returns
  rw [State.pending, if_neg (by simp [sleeps, parked.1]), Nat.add_zero] at starts
  rw [State.active, if_pos (.inr (.inl sleeps)), Nat.add_zero, starts] at returns
  exact ⟨returns, starts, sleeps, parked⟩

/-! ### Calls return -/

/-- How many turns the native thread still has before it waits or ends -/
def State.nativeRank (s : State) : ℕ :=
  match s.native with
  | .begins => 8
  | .roots => 7
  | .pops => 6
  | .runsSched => 5
  | .tests => if s.sched = .terminated then 4 else 7
  | .finishes => 3
  | .returned => 2
  | .sleeps => if s.nativeAsleep then 0 else if s.context = .running then 8 else 1
  | .ended | .failed => 0

/-- How many turns the caller still has, and what they give the native thread to do -/
def State.callerRank (s : State) : ℕ :=
  match s.caller with
  | .idle | .freed | .failed => 0
  | .revivesSched => 12
  | .revivesState => 11
  | .revivesContext => 10
  | .joinsSched _ => 10
  | .joinsContext _ => 9
  | .sleeps _ => if s.callerAsleep then 7 else 8
  | .checks _ => 6
  | .freesRoot => 5
  | .testsContext => 4
  | .terminates => 3
  | .joinsThread => 1

def State.rank (s : State) : ℕ := s.nativeRank + s.callerRank

/-- The turns, and the end of the main scheduler -/
def Goes : Event → Prop
  | .native | .caller | .stops => True
  | _ => False

/-- The caller is not in a call. -/
def Returned (s : State) : Prop := s.caller = .idle ∨ s.caller = .freed

/-- The thread goes on as long as it has not been asked to wait. -/
theorem Fine.native_enabled (fine : Fine s) (working : Working s) :
    ∃ event, Goes event ∧ (s.step event).isSome := by
  have known := fine.native
  cases place : s.native with
  | begins | roots | pops | tests | finishes | returned =>
      exact ⟨.native, trivial, by simp [State.step, State.nativeTurn, place]⟩
  | runsSched => exact ⟨.stops, trivial, by simp [State.step, place]⟩
  | sleeps =>
      rw [NativeKnows, place] at known
      have woken : s.nativeAsleep = false := by
        rcases known with waiting | ⟨woken, -⟩
        · simp [Working, waiting] at working
        · exact woken
      exact ⟨.native, trivial, by simp [State.step, State.nativeTurn, place, woken]⟩
  | ended =>
      rw [NativeKnows, place] at known
      simp [Working, known] at working
  | failed =>
      rw [NativeKnows, place] at known
      exact known.elim

/-- **Someone can go on while the caller is in a call.** -/
theorem Fine.enabled (fine : Fine s) (busy : ¬Returned s) :
    ∃ event, Goes event ∧ (s.step event).isSome := by
  have known := fine.caller
  cases place : s.caller with
  | idle => exact absurd (.inl place) busy
  | freed => exact absurd (.inr place) busy
  | failed =>
      rw [CallerKnows, place] at known
      exact known.elim
  | joinsSched call =>
      rw [CallerKnows, place] at known
      rcases known with running | ⟨-, stopped, -⟩
      · exact fine.native_enabled (.inl running)
      · exact ⟨.caller, trivial, by simp [State.step, State.callerTurn, place, stopped]⟩
  | sleeps call =>
      cases asleep : s.callerAsleep with
      | true => exact fine.native_enabled (.inr (fine.requested asleep).1)
      | false => exact ⟨.caller, trivial, by simp [State.step, State.callerTurn, place, asleep]⟩
  | joinsThread =>
      rw [CallerKnows, place] at known
      rcases fine.native_of_frees (by rw [place]; trivial) with sleeps | ended
      · have woken : s.nativeAsleep = false := by
          have native := fine.native
          rw [NativeKnows, sleeps] at native
          rcases native with waiting | ⟨woken, -⟩
          · rw [known] at waiting
            cases waiting
          · exact woken
        exact ⟨.native, trivial, by simp [State.step, State.nativeTurn, sleeps, woken]⟩
      · exact ⟨.caller, trivial, by simp [State.step, State.callerTurn, place, ended]⟩
  | joinsContext | checks | revivesSched | revivesState | revivesContext | freesRoot
  | testsContext | terminates =>
      exact ⟨.caller, trivial, by simp [State.step, State.callerTurn, place]⟩

theorem Fine.recheck_lowers (fine : Fine s) (place : s.native = .sleeps)
    (woken : s.nativeAsleep = false) : s.recheck.nativeRank < s.nativeRank := by
  have known := fine.native
  rw [NativeKnows, place] at known
  rcases known with waiting | ⟨-, terminate | ⟨running, -⟩⟩
  · simp [State.nativeRank, State.recheck, place, woken, waiting]
  · simp [State.nativeRank, State.recheck, place, woken, terminate]
  · simp [State.nativeRank, State.recheck, place, woken, running]

/-- A turn of the native thread lowers its rank, and it may wake the caller. -/
theorem Fine.nativeTurn_lowers (fine : Fine s) (taken : s.nativeTurn = some t) :
    t.rank < s.rank := by
  have known := fine.native
  rw [State.nativeTurn] at taken
  cases place : s.native with
  | begins =>
      rw [NativeKnows, place] at known
      rw [place] at taken
      cases taken
      rw [if_pos known.1]
      simp [State.rank, State.nativeRank, State.callerRank, place]
  | roots =>
      rw [NativeKnows, place] at known
      rw [place] at taken
      cases taken
      rw [if_neg (by simp [known.2.2.2])]
      simp [State.rank, State.nativeRank, State.callerRank, place]
  | pops =>
      rw [NativeKnows, place] at known
      rw [place] at taken
      cases taken
      rw [if_pos known.2.2.1]
      simp [State.rank, State.nativeRank, State.callerRank, place]
  | tests =>
      rw [place] at taken
      cases taken
      by_cases stopped : s.sched = .terminated
      · simp [State.rank, State.nativeRank, State.callerRank, place, stopped]
      · simp [State.rank, State.nativeRank, State.callerRank, place, stopped]
  | finishes =>
      rw [place] at taken
      cases taken
      simp [State.rank, State.nativeRank, State.callerRank, place]
  | returned =>
      rw [place] at taken
      cases taken
      have woken : ∀ asleep : Bool, State.callerRank { s with
          context := .waiting
          native := .sleeps
          nativeAsleep := true
          callerAsleep := asleep
          returns := s.returns + 1 } ≤ s.callerRank + 1 := by
        intro asleep
        rw [State.callerRank, State.callerRank]
        cases s.caller with
        | sleeps =>
            dsimp only
            split <;> split <;> decide
        | idle | joinsSched | joinsContext | checks | revivesSched | revivesState | revivesContext
        | freesRoot | testsContext | terminates | joinsThread | freed | failed =>
            exact Nat.le_succ _
      have caller := woken (if s.context = .reqJoin then false else s.callerAsleep)
      simp only [State.rank, State.nativeRank, place] at caller ⊢
      simp only [if_true]
      omega
  | sleeps =>
      rw [place] at taken
      obtain ⟨woken, same⟩ := Option.ite_none_left_eq_some.mp taken
      cases same
      have lower := fine.recheck_lowers place (Bool.eq_false_iff.mpr woken)
      have caller : s.recheck.callerRank = s.callerRank := by
        rw [State.recheck]
        split <;> rfl
      rw [State.rank, State.rank, caller]
      omega
  | runsSched | ended | failed =>
      rw [place] at taken
      cases taken

/-- A turn of the caller lowers its rank by more than it gives the native thread to do. -/
theorem Fine.callerTurn_lowers (fine : Fine s) (taken : s.callerTurn = some t) :
    t.rank < s.rank := by
  have known := fine.caller
  have native := fine.native
  rw [State.callerTurn] at taken
  cases place : s.caller with
  | idle | freed | failed =>
      rw [place] at taken
      cases taken
  | joinsSched call =>
      rw [place] at taken
      obtain ⟨-, same⟩ := Option.ite_none_right_eq_some.mp taken
      cases same
      simp [State.rank, State.nativeRank, State.callerRank, place]
  | joinsContext call =>
      rw [CallerKnows, place] at known
      rw [place] at taken
      cases taken
      rcases known with ⟨running, stopped⟩ | ⟨waiting, -⟩
      · have working := native.works running stopped
        cases there : s.native <;>
          simp_all [State.rank, State.nativeRank, State.callerRank]
      · simp [State.rank, State.nativeRank, State.callerRank, place, waiting]
  | sleeps call =>
      rw [CallerKnows, place] at known
      rw [place] at taken
      obtain ⟨woken, same⟩ := Option.ite_none_left_eq_some.mp taken
      cases same
      rcases known with ⟨requested, -⟩ | ⟨⟨waiting, -⟩, -⟩
      · simp [State.rank, State.nativeRank, State.callerRank, place, requested, woken]
      · simp [State.rank, State.nativeRank, State.callerRank, place, waiting, woken]
  | checks call =>
      rw [CallerKnows, place] at known
      rw [place] at taken
      cases taken
      rw [if_pos known.2.2.2]
      cases call with
      | join => simp [State.rank, State.nativeRank, State.callerRank, place]
      | free => simp [State.rank, State.nativeRank, State.callerRank, place]
  | revivesSched =>
      rw [CallerKnows, place] at known
      rw [place] at taken
      cases taken
      simp [State.rank, State.nativeRank, State.callerRank, place, native.sleeps known.1]
  | revivesContext =>
      rw [CallerKnows, place] at known
      rw [place] at taken
      cases taken
      rw [if_pos known.1]
      simp only [State.rank, State.nativeRank, State.callerRank, place, native.sleeps known.1]
      simp
  | terminates =>
      rw [CallerKnows, place] at known
      rw [place] at taken
      cases taken
      rw [if_pos known.1]
      simp only [State.rank, State.nativeRank, State.callerRank, place, native.sleeps known.1]
      simp
  | revivesState | freesRoot =>
      rw [place] at taken
      cases taken
      simp [State.rank, State.nativeRank, State.callerRank, place]
  | testsContext =>
      rw [CallerKnows, place] at known
      rw [place] at taken
      cases taken
      rw [if_neg (by simp [known.1])]
      simp [State.rank, State.nativeRank, State.callerRank, place]
  | joinsThread =>
      rw [place] at taken
      obtain ⟨-, same⟩ := Option.ite_none_right_eq_some.mp taken
      cases same
      simp [State.rank, State.nativeRank, State.callerRank, place]

/-- **Every call returns** when the main scheduler stops: every run of turns leads the caller out of
its call, and no such run gets stuck before. -/
theorem call_returns (reachable : stream.Reachable Documented s) :
    stream.Inevitable Goes Returned s := by
  refine Machine.inevitable Fine State.rank ?_ ?_ ?_ (Fine.of_reachable reachable)
  · intro s event t fine goes taken
    refine fine.step ?_ taken
    cases event with
    | revive => exact goes.elim
    | native | nativeSpurious | yields | stops | caller | callerSpurious | join | free =>
        exact trivial
  · intro s event t fine _ goes taken
    cases event with
    | native => exact fine.nativeTurn_lowers taken
    | caller => exact fine.callerTurn_lowers taken
    | stops =>
        obtain ⟨place, same⟩ := Option.ite_none_right_eq_some.mp taken
        cases same
        simp [State.rank, State.nativeRank, State.callerRank, place]
    | nativeSpurious | yields | callerSpurious | join | revive | free => exact goes.elim
  · intro s fine busy
    obtain ⟨event, goes, taken⟩ := fine.enabled busy
    obtain ⟨t, taken⟩ := Option.isSome_iff_exists.mp taken
    exact ⟨event, t, goes, taken⟩

/-! ## One stream -/

/-- The main scheduler stops, and a caller waits for the native thread, and is woken spuriously. -/
def untilAsleep : List Event :=
  [.native, .native, .native, .stops, .join, .caller, .caller, .callerSpurious, .caller]

/-- The stream is joined, revived, and joined once more.  The second time, the native thread waits
before the caller looks. -/
def joinedTwice : List Event :=
  untilAsleep ++ [.native, .native, .native, .caller, .caller, .revive, .caller, .caller, .caller,
    .native, .native, .native, .stops, .join, .native, .native, .native, .caller, .caller, .caller]

theorem context_safe_asleep : ∃ s : State, s.callerAsleep = true ∧
    s.native ≠ .failed ∧ s.caller ≠ .failed ∧
      (s.rootFreed = true → s.native = .sleeps ∨ s.native = .ended) ∧
      (s.native = .sleeps → s.nativeAsleep = true → s.context = .waiting) ∧
      (s.callerAsleep = true → s.context = .reqJoin ∧ s.native ≠ .sleeps) ∧
      (s.caller = .freed → s.native = .ended) := by
  obtain ⟨s, reachable, asleep⟩ := Machine.exists_reachable_of_play (M := stream) Documented
    (s := created) rfl untilAsleep State.callerAsleep (by decide +kernel)
  exact ⟨s, asleep, context_safe reachable⟩

theorem joined_rounds_twice : ∃ s : State, s.revives = 1 ∧
    s.returns = s.revives + 1 ∧ s.starts = s.revives + 1 ∧ s.native = .sleeps ∧ Parked s := by
  obtain ⟨s, reachable, holds⟩ := Machine.exists_reachable_of_play (M := stream) Documented
    (s := created) rfl joinedTwice
    (fun s => decide (s.caller = .idle ∧ s.joined = true ∧ s.revives = 1)) (by decide +kernel)
  obtain ⟨idle, joined, revived⟩ := of_decide_eq_true holds
  exact ⟨s, revived, joined_rounds reachable idle joined⟩

theorem call_returns_asleep :
    ∃ s : State, s.callerAsleep = true ∧ stream.Inevitable Goes Returned s := by
  obtain ⟨s, reachable, asleep⟩ := Machine.exists_reachable_of_play (M := stream) Documented
    (s := created) rfl untilAsleep State.callerAsleep (by decide +kernel)
  exact ⟨s, asleep, call_returns reachable⟩

/-- `ABT_xstream_revive` on a stream that has stopped, but has not been joined: the native thread
does not wait yet, and an assertion fails. -/
theorem revive_unjoined_fails :
    ∃ s, stream.Reachable Machine.anyEvent s ∧ decide (s.caller = .failed) = true :=
  Machine.exists_reachable_of_play (M := stream) Machine.anyEvent (s := created) rfl
    [.native, .native, .native, .stops, .revive, .caller, .caller, .caller]
    (fun s => decide (s.caller = .failed)) (by decide +kernel)

end ArgobotsReduction.Streams.NativeThread
