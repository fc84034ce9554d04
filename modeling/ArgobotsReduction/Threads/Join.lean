import ArgobotsReduction.Parallel.Machine

/-!
# The join handshake

A joiner tells a ULT that it waits by setting `ABTI_THREAD_REQ_JOIN` and then the link
of the ULT.  The ULT looks for the link when it terminates, and sets the same bit
when it finds none: whoever sets the bit first knows whether the other one is to
come.  The joiner is resumed over the link.

A joiner is a ULT, which is suspended by a context switch, or it is external and
waits on a futex; with the active wait policy an external joiner only polls the state.
A terminating ULT either tries to jump to its joiner (`ABTI_ythread_exit`) or only
resumes it (`ABTI_ythread_exit_to`, `ABTI_ythread_resume_exit_to` and the handler of a
cancellation).

Every event is one atomic access of the joiner or of the target.
-/

set_option autoImplicit false

namespace ArgobotsReduction.Threads.Join

open Parallel

/-- The ways in which a joiner waits. -/
inductive Kind where
  | ult
  | futex
  | busywait
  deriving DecidableEq

/-- Whether the terminating ULT may jump to its joiner. -/
inductive Ending where
  | exit
  | resumeJoiner
  deriving DecidableEq

/-- The states of a joiner that is a ULT. -/
inductive ThreadState where
  | ready
  | running
  | blocked
  deriving DecidableEq

/-- The places of `thread_join`. -/
inductive JoinerPlace where
  | loadState
  | fetchOr
  | block
  | storeLink
  | suspended
  | poll
  | returned
  deriving DecidableEq

/-- The places of a terminating ULT. -/
inductive TargetPlace where
  | running
  | loadLink (ending : Ending)
  | fetchOr (ending : Ending)
  | spin (ending : Ending)
  | found (ending : Ending)
  | terminate
  | terminated
  deriving DecidableEq

/-- A joiner and its target.  The state of the joiner and its futex are its own, the
other fields belong to the target.  `suspends` says that the joiner has decided to be
suspended, and `resumed` counts its resumptions. -/
structure State where
  joiner : JoinerPlace
  target : TargetPlace
  joinRequest : Bool
  link : Bool
  terminated : Bool
  joinerState : ThreadState
  futex : Bool
  suspends : Bool
  resumed : ℕ
  deriving DecidableEq

/-- An event.  A terminating ULT has an ending, and its last stream may be the one of
the joiner. -/
inductive Event where
  | joiner
  | target (ending : Ending) (sameStream : Bool)

/-- A step of `thread_join`. -/
def joinerStep (kind : Kind) (s : State) : Option State :=
  match s.joiner with
  | .loadState =>
      if s.terminated then some { s with joiner := .returned }
      else if kind = .busywait then some { s with joiner := .poll }
      else some { s with joiner := .fetchOr }
  | .fetchOr =>
      if s.joinRequest then some { s with joiner := .poll }
      else some { s with
        joinRequest := true
        suspends := true
        joiner := if kind = .ult then .block else .storeLink }
  | .block => some { s with joinerState := .blocked, joiner := .storeLink }
  | .storeLink => some { s with link := true, joiner := .suspended }
  | .suspended =>
      match kind with
      | .ult =>
          match s.joinerState with
          | .blocked => none
          | .ready => some { s with joinerState := .running, joiner := .poll }
          -- after a jump the target's callback runs first
          | .running => if s.target = .terminated then some { s with joiner := .poll } else none
      | _ => if s.futex then some { s with joiner := .poll } else some s
  | .poll => some (if s.terminated then { s with joiner := .returned } else s)
  | .returned => none

/-- `ABTD_futex_resume`, or the resumption of a ULT, which may be a jump. -/
def resume (kind : Kind) (jumps : Bool) (s : State) : State :=
  match kind with
  | .ult => { s with
      joinerState := if jumps then .running else .ready
      resumed := s.resumed + 1 }
  | _ => { s with futex := true, resumed := s.resumed + 1 }

/-- A step of the termination.  A main scheduler never jumps. -/
def targetStep (kind : Kind) (mainSched : Bool) (ending : Ending) (sameStream : Bool)
    (s : State) : Option State :=
  match s.target with
  | .running => some { s with target := .loadLink ending }
  | .loadLink ending => some { s with target := if s.link then .found ending else .fetchOr ending }
  | .fetchOr ending =>
      some { s with
        joinRequest := true
        target := if s.joinRequest then .spin ending else .terminate }
  | .spin ending => some (if s.link then { s with target := .found ending } else s)
  | .found ending =>
      some { resume kind (ending == .exit && sameStream && !mainSched) s with target := .terminate }
  | .terminate => some { s with terminated := true, target := .terminated }
  | .terminated => none

/-- Before the joiner calls `thread_join` and the target terminates. -/
def begins : State where
  joiner := .loadState
  target := .running
  joinRequest := false
  link := false
  terminated := false
  joinerState := .running
  futex := false
  suspends := false
  resumed := 0

/-- The machine of the two. -/
def handshakes (kind : Kind) (mainSched : Bool) : Machine State Event where
  init s := s = begins
  step s
    | .joiner => joinerStep kind s
    | .target ending sameStream => targetStep kind mainSched ending sameStream s

/-! ## Phases -/

/-- The target has not yet set the bit. -/
def TargetPlace.Before : TargetPlace → Prop
  | .running | .loadLink _ | .fetchOr _ => True
  | _ => False

/-- The target knows of the joiner. -/
def TargetPlace.Knows : TargetPlace → Prop
  | .spin _ | .found _ => True
  | _ => False

/-- The target is done with the joiner. -/
def TargetPlace.Done : TargetPlace → Prop
  | .terminate | .terminated => True
  | _ => False

/-- The joiner can go on after a suspension. -/
def State.Awake (kind : Kind) (s : State) : Prop :=
  match kind with
  | .ult => s.joinerState ≠ .blocked
  | _ => s.futex = true

/-- The joiner is suspended, or about to be, and nothing has resumed it. -/
def State.Asleep (kind : Kind) (s : State) : Prop :=
  match s.joiner with
  | .block | .storeLink => True
  | .suspended => ¬s.Awake kind
  | _ => False

/-- What the two know of each other. -/
inductive Phase (kind : Kind) (s : State) : Prop where
  /-- Nobody has set the bit. -/
  | undecided (joiner : s.joiner = .loadState ∨ s.joiner = .fetchOr ∨
        kind = .busywait ∧ s.joiner = .poll)
      (target : s.target.Before) (request : s.joinRequest = false) (link : s.link = false)
      (suspends : s.suspends = false) (resumed : s.resumed = 0) (futex : s.futex = false)
  /-- The joiner has set it first, and is to be resumed. -/
  | waits (asleep : s.Asleep kind) (target : s.target.Before ∨ s.target.Knows)
      (found : ∀ ending, s.target = .found ending → s.link = true)
      (request : s.joinRequest = true) (link : s.link = true ↔ s.joiner = .suspended)
      (blocked : kind = .ult → s.joiner ≠ .block → s.joinerState = .blocked)
      (suspends : s.suspends = true) (resumed : s.resumed = 0) (futex : s.futex = false)
  /-- The joiner has been resumed. -/
  | woken (joiner : s.joiner = .suspended ∨ s.joiner = .poll ∨ s.joiner = .returned)
      (target : s.target.Done) (awake : s.Awake kind) (suspends : s.suspends = true)
      (resumed : s.resumed = 1)
  /-- The target has set it first. -/
  | passed (joiner : s.joiner = .loadState ∨ s.joiner = .fetchOr ∨ s.joiner = .poll ∨
        s.joiner = .returned)
      (target : s.target.Done) (request : s.joinRequest = true) (suspends : s.suspends = false)
      (resumed : s.resumed = 0)

/-- The invariant of the handshake. -/
structure Handshake (kind : Kind) (s : State) : Prop where
  phase : Phase kind s
  terminated : s.terminated = true ↔ s.target = .terminated
  returned : s.joiner = .returned → s.terminated = true

section Steps

variable {kind : Kind} {mainSched : Bool} {s t : State}

theorem handshake_begins (kind : Kind) : Handshake kind begins :=
  ⟨.undecided (.inl rfl) trivial rfl rfl rfl rfl rfl, by simp [begins], nofun⟩

/-- A joiner that finds the bit clear is going to be suspended. -/
theorem Phase.fetchOr (target : s.target.Before) (joiner : s.joiner = .fetchOr)
    (request : s.joinRequest = false) (link : s.link = false) (resumed : s.resumed = 0)
    (futex : s.futex = false) (step : joinerStep kind s = some t) : Phase kind t := by
  simp only [joinerStep, joiner, request] at step
  cases step
  have place : ∀ ending, s.target = .found ending → s.link = true := by
    intro ending found
    rw [found] at target
    exact target.elim
  cases kind with
  | ult => exact .waits trivial (.inl target) place rfl (by simp [link]) (by simp) rfl resumed futex
  | futex | busywait =>
      exact .waits trivial (.inl target) place rfl (by simp [link]) nofun rfl resumed futex

/-- The joiner is suspended step by step, and stays so until it is resumed. -/
theorem Phase.suspend (asleep : s.Asleep kind) (target : s.target.Before ∨ s.target.Knows)
    (found : ∀ ending, s.target = .found ending → s.link = true) (request : s.joinRequest = true)
    (link : s.link = true ↔ s.joiner = .suspended)
    (blocked : kind = .ult → s.joiner ≠ .block → s.joinerState = .blocked)
    (suspends : s.suspends = true) (resumed : s.resumed = 0) (futex : s.futex = false)
    (step : joinerStep kind s = some t) : Phase kind t := by
  cases place : s.joiner with
  | block =>
      simp only [joinerStep, place] at step
      cases step
      refine .waits trivial target found request ?_ (fun _ _ => rfl) suspends resumed futex
      simpa [place] using link
  | storeLink =>
      simp only [joinerStep, place] at step
      cases step
      refine .waits ?_ target (fun _ _ => rfl) request (by simp)
        (fun ult _ => blocked ult (by simp [place])) suspends resumed futex
      cases kind with
      | ult => simp [State.Asleep, State.Awake, blocked rfl (by simp [place])]
      | futex | busywait => simp [State.Asleep, State.Awake, futex]
  | suspended =>
      simp only [joinerStep, place] at step
      cases kind with
      | ult => simp [blocked rfl (by simp [place])] at step
      | futex | busywait =>
          simp only [futex] at step
          cases step
          exact .waits asleep target found request link blocked suspends resumed futex
  | loadState | fetchOr | poll | returned => simp [State.Asleep, place] at asleep

/-- A joiner that has been resumed goes on. -/
theorem Phase.goOn (joiner : s.joiner = .suspended ∨ s.joiner = .poll ∨ s.joiner = .returned)
    (target : s.target.Done) (awake : s.Awake kind) (suspends : s.suspends = true)
    (resumed : s.resumed = 1) (step : joinerStep kind s = some t) : Phase kind t := by
  rcases joiner with place | place | place
  · simp only [joinerStep, place] at step
    cases kind with
    | ult =>
        cases running : s.joinerState with
        | blocked => exact absurd running awake
        | ready =>
            simp only [running] at step
            cases step
            exact .woken (.inr (.inl rfl)) target (by simp [State.Awake]) suspends resumed
        | running =>
            simp only [running, Option.ite_none_right_eq_some] at step
            obtain ⟨-, step⟩ := step
            cases step
            exact .woken (.inr (.inl rfl)) target (by simp [State.Awake]) suspends resumed
    | futex | busywait =>
        simp only [show s.futex = true from awake] at step
        cases step
        exact .woken (.inr (.inl rfl)) target rfl suspends resumed
  · simp only [joinerStep, place, Option.some.injEq] at step
    split at step <;> subst step
    · exact .woken (.inr (.inr rfl)) target awake suspends resumed
    · exact .woken (.inr (.inl place)) target awake suspends resumed
  · simp [joinerStep, place] at step

/-- A joiner that comes too late is never suspended. -/
theorem Phase.late (joiner : s.joiner = .loadState ∨ s.joiner = .fetchOr ∨ s.joiner = .poll ∨
      s.joiner = .returned)
    (target : s.target.Done) (request : s.joinRequest = true) (suspends : s.suspends = false)
    (resumed : s.resumed = 0) (step : joinerStep kind s = some t) : Phase kind t := by
  rcases joiner with place | place | place | place
  · simp only [joinerStep, place] at step
    split at step
    · cases step
      exact .passed (.inr (.inr (.inr rfl))) target request suspends resumed
    · split at step <;> cases step
      · exact .passed (.inr (.inr (.inl rfl))) target request suspends resumed
      · exact .passed (.inr (.inl rfl)) target request suspends resumed
  · simp only [joinerStep, place, request] at step
    cases step
    exact .passed (.inr (.inr (.inl rfl))) target rfl suspends resumed
  · simp only [joinerStep, place, Option.some.injEq] at step
    split at step <;> subst step
    · exact .passed (.inr (.inr (.inr rfl))) target request suspends resumed
    · exact .passed (.inr (.inr (.inl place))) target request suspends resumed
  · simp [joinerStep, place] at step

/-- A step of the joiner. -/
theorem Phase.joiner (phase : Phase kind s)
    (terminated : s.terminated = true ↔ s.target = .terminated)
    (step : joinerStep kind s = some t) : Phase kind t := by
  cases phase with
  | undecided joiner target request link suspends resumed futex =>
      have notDone : s.terminated = false := by
        cases place : s.target <;> simp_all [TargetPlace.Before]
      rcases joiner with place | place | ⟨busy, place⟩
      · simp only [joinerStep, place, notDone] at step
        split at step
        · contradiction
        · split at step <;> cases step
          · exact .undecided (.inr (.inr ⟨‹_›, rfl⟩)) target request link suspends resumed futex
          · exact .undecided (.inr (.inl rfl)) target request link suspends resumed futex
      · exact .fetchOr target place request link resumed futex step
      · simp only [joinerStep, place, notDone] at step
        cases step
        exact .undecided (.inr (.inr ⟨busy, place⟩)) target request link suspends resumed futex
  | waits asleep target found request link blocked suspends resumed futex =>
      exact .suspend asleep target found request link blocked suspends resumed futex step
  | woken joiner target awake suspends resumed =>
      exact .goOn joiner target awake suspends resumed step
  | passed joiner target request suspends resumed =>
      exact .late joiner target request suspends resumed step

/-- The target resumes a joiner that is suspended. -/
theorem Phase.resume (asleep : s.joiner = .suspended) (jumps : Bool) (suspends : s.suspends = true)
    (resumed : s.resumed = 0) :
    Phase kind { Join.resume kind jumps s with target := .terminate } := by
  cases kind with
  | ult =>
      refine .woken (.inl asleep) trivial ?_ suspends (by simp [Join.resume, resumed])
      cases jumps <;> simp [State.Awake, Join.resume]
  | futex | busywait =>
      exact .woken (.inl asleep) trivial rfl suspends (by simp [Join.resume, resumed])

/-- A step of the target. -/
theorem Phase.target (phase : Phase kind s) {ending : Ending} {sameStream : Bool}
    (step : targetStep kind mainSched ending sameStream s = some t) : Phase kind t := by
  cases phase with
  | undecided joiner target request link suspends resumed futex =>
      cases place : s.target with
      | running =>
          simp only [targetStep, place] at step
          cases step
          exact .undecided joiner trivial request link suspends resumed futex
      | loadLink ending =>
          simp only [targetStep, place, link] at step
          cases step
          exact .undecided joiner trivial request rfl suspends resumed futex
      | fetchOr ending =>
          simp only [targetStep, place, request] at step
          cases step
          refine .passed ?_ trivial rfl suspends resumed
          rcases joiner with first | second | ⟨-, third⟩
          · exact .inl first
          · exact .inr (.inl second)
          · exact .inr (.inr (.inl third))
      | spin | found | terminate | terminated =>
          rw [place] at target
          exact target.elim
  | waits asleep target found request link blocked suspends resumed futex =>
      cases place : s.target with
      | running =>
          simp only [targetStep, place] at step
          cases step
          exact .waits asleep (.inl trivial) nofun request link blocked suspends resumed futex
      | loadLink ending =>
          simp only [targetStep, place] at step
          cases step
          cases here : s.link with
          | true =>
              exact .waits asleep (.inr trivial) (fun _ _ => rfl) request
                (by simpa [here] using link)
                blocked suspends resumed futex
          | false =>
              exact .waits asleep (.inl trivial) nofun request (by simpa [here] using link) blocked
                suspends resumed futex
      | fetchOr ending =>
          simp only [targetStep, place, request] at step
          cases step
          exact .waits asleep (.inr trivial) nofun rfl link blocked suspends resumed futex
      | spin ending =>
          simp only [targetStep, place, Option.some.injEq] at step
          split at step <;> subst step
          · exact .waits asleep (.inr trivial) (fun _ _ => ‹_›) request link blocked suspends resumed
              futex
          · exact .waits asleep target found request link blocked suspends resumed futex
      | found ending =>
          simp only [targetStep, place] at step
          cases step
          exact .resume (link.mp (found _ place)) _ suspends resumed
      | terminate | terminated =>
          rw [place] at target
          exact target.elim False.elim False.elim
  | woken joiner target awake suspends resumed =>
      cases place : s.target with
      | terminate =>
          simp only [targetStep, place] at step
          cases step
          exact .woken joiner trivial awake suspends resumed
      | terminated => simp [targetStep, place] at step
      | running | loadLink | fetchOr | spin | found =>
          rw [place] at target
          exact target.elim
  | passed joiner target request suspends resumed =>
      cases place : s.target with
      | terminate =>
          simp only [targetStep, place] at step
          cases step
          exact .passed joiner trivial request suspends resumed
      | terminated => simp [targetStep, place] at step
      | running | loadLink | fetchOr | spin | found =>
          rw [place] at target
          exact target.elim

/-- The joiner leaves the target alone and returns only when it has terminated. -/
theorem joinerStep_keeps (step : joinerStep kind s = some t) :
    t.target = s.target ∧ t.terminated = s.terminated ∧
      (t.joiner = .returned → s.terminated = true) := by
  unfold joinerStep at step
  split at step
  next place =>
    split at step
    next terminated =>
      cases step
      exact ⟨rfl, rfl, fun _ => terminated⟩
    next => split at step <;> cases step <;> exact ⟨rfl, rfl, nofun⟩
  next place =>
    split at step
    next =>
      cases step
      exact ⟨rfl, rfl, nofun⟩
    next =>
      cases step
      cases kind <;> exact ⟨rfl, rfl, nofun⟩
  next =>
    cases step
    exact ⟨rfl, rfl, nofun⟩
  next =>
    cases step
    exact ⟨rfl, rfl, nofun⟩
  next place =>
    have stays : s.joiner ≠ .returned := by simp [place]
    repeat' split at step
    all_goals cases step
    all_goals first
      | exact ⟨rfl, rfl, fun returned => absurd returned stays⟩
      | exact ⟨rfl, rfl, nofun⟩
  next place =>
    split at step
    next terminated =>
      cases step
      exact ⟨rfl, rfl, fun _ => terminated⟩
    next =>
      cases step
      exact ⟨rfl, rfl, fun returned => by simp [place] at returned⟩
  next => cases step

/-- The target leaves the place of the joiner alone, and terminates once. -/
theorem targetStep_keeps {ending : Ending} {sameStream : Bool}
    (terminated : s.terminated = true ↔ s.target = .terminated)
    (step : targetStep kind mainSched ending sameStream s = some t) :
    t.joiner = s.joiner ∧ (t.terminated = true ↔ t.target = .terminated) ∧
      (s.terminated = true → t.terminated = true) := by
  have running : s.target ≠ .terminated → s.terminated = false := fun other =>
    eq_false_of_ne_true (terminated.not.mpr other)
  rw [targetStep] at step
  split at step
  next place =>
    cases step
    simp [running (by simp [place])]
  next place =>
    cases step
    split <;> simp [running (by simp [place])]
  next place =>
    cases step
    split <;> simp [running (by simp [place])]
  next place =>
    split at step
    all_goals cases step
    · simp [running (by simp [place])]
    · exact ⟨rfl, terminated, id⟩
  next place =>
    cases step
    cases kind <;> simp [resume, running (by simp [place])]
  next =>
    cases step
    simp
  next => cases step

theorem Handshake.step (handshake : Handshake kind s) {event : Event}
    (step : (handshakes kind mainSched).step s event = some t) : Handshake kind t := by
  cases event with
  | joiner =>
      obtain ⟨target, terminated, returned⟩ := joinerStep_keeps step
      refine ⟨handshake.phase.joiner handshake.terminated step, ?_, fun place => ?_⟩
      · rw [target, terminated]
        exact handshake.terminated
      · rw [terminated]
        exact returned place
  | target ending sameStream =>
      obtain ⟨joiner, terminated, still⟩ := targetStep_keeps handshake.terminated step
      refine ⟨handshake.phase.target step, terminated, fun place => ?_⟩
      rw [joiner] at place
      exact still (handshake.returned place)

theorem Handshake.of_reachable
    (reachable : (handshakes kind mainSched).Reachable Machine.anyEvent s) : Handshake kind s := by
  refine Machine.invariant (Handshake kind) ?_ (fun _ _ _ _ _ handshake step => handshake.step step)
    reachable
  rintro _ rfl
  exact handshake_begins kind

end Steps

/-! ## The joiner is woken once -/

/-- What a handshake is for. -/
structure WakesOnce (kind : Kind) (s : State) : Prop where
  returned : s.joiner = .returned → s.terminated = true
  atMostOnce : s.resumed ≤ 1
  resumed : s.suspends = true →
    s.terminated = true ∨ s.joiner = .poll ∨ s.joiner = .returned → s.resumed = 1
  neverResumed : s.suspends = false → s.resumed = 0
  blocked : kind = .ult → ∀ ending, s.target = .found ending → s.joinerState = .blocked
  goesOn : s.terminated = true →
    s.joiner = .block ∨ s.joiner = .storeLink ∨ s.joiner = .suspended →
      s.resumed = 1 ∧ ∃ t, joinerStep kind s = some t ∧ t.joiner = .poll

section Claims

variable {kind : Kind} {mainSched : Bool} {s : State}

/-- A joiner that has been resumed can go on once the target has terminated. -/
theorem joinerStep_of_awake (awake : s.Awake kind) (joiner : s.joiner = .suspended)
    (target : s.target = .terminated) : ∃ t, joinerStep kind s = some t ∧ t.joiner = .poll := by
  cases kind with
  | ult =>
      cases running : s.joinerState with
      | blocked => exact absurd running awake
      | ready => simp [joinerStep, joiner, running]
      | running => simp [joinerStep, joiner, running, target]
  | futex | busywait => simp [joinerStep, joiner, show s.futex = true from awake]

theorem Handshake.wakesOnce (handshake : Handshake kind s) : WakesOnce kind s where
  returned := handshake.returned
  atMostOnce := by
    cases handshake.phase with
    | undecided _ _ _ _ _ resumed _ => simp [resumed]
    | waits _ _ _ _ _ _ _ resumed _ => simp [resumed]
    | woken _ _ _ _ resumed => simp [resumed]
    | passed _ _ _ _ resumed => simp [resumed]
  resumed := by
    intro decided past
    cases handshake.phase with
    | undecided _ _ _ _ suspends _ _ => simp [suspends] at decided
    | waits asleep target _ _ _ _ _ _ _ =>
        rcases past with terminated | place | place
        · rw [handshake.terminated.mp terminated] at target
          exact target.elim False.elim False.elim
        · simp [State.Asleep, place] at asleep
        · simp [State.Asleep, place] at asleep
    | woken _ _ _ _ resumed => exact resumed
    | passed _ _ _ suspends _ => simp [suspends] at decided
  neverResumed := by
    intro never
    cases handshake.phase with
    | undecided _ _ _ _ _ resumed _ => exact resumed
    | waits _ _ _ _ _ _ suspends _ _ => simp [suspends] at never
    | woken _ _ _ suspends _ => simp [suspends] at never
    | passed _ _ _ _ resumed => exact resumed
  blocked := by
    intro ult ending place
    cases handshake.phase with
    | undecided _ target _ _ _ _ _ =>
        rw [place] at target
        exact target.elim
    | waits _ _ found _ link blocked _ _ _ =>
        exact blocked ult (by simp [link.mp (found ending place)])
    | woken _ target _ _ _ | passed _ target _ _ _ =>
        rw [place] at target
        exact target.elim
  goesOn := by
    intro terminated joiner
    have target := handshake.terminated.mp terminated
    cases handshake.phase with
    | undecided _ before _ _ _ _ _ =>
        rw [target] at before
        exact before.elim
    | waits _ before _ _ _ _ _ _ _ =>
        rw [target] at before
        exact before.elim False.elim False.elim
    | woken place _ awake _ resumed =>
        have suspended : s.joiner = .suspended := by
          rcases joiner with here | here | here
          all_goals rw [here] at place ⊢
          all_goals simp at place
        exact ⟨resumed, joinerStep_of_awake awake suspended target⟩
    | passed place _ _ _ _ => rcases joiner with here | here | here <;> simp [here] at place

/-- **The join handshake wakes the joiner exactly once.** -/
theorem join_wakesOnce (kind : Kind) (mainSched : Bool) {s : State}
    (reachable : (handshakes kind mainSched).Reachable Machine.anyEvent s) : WakesOnce kind s :=
  (Handshake.of_reachable reachable).wakesOnce

/-- A joiner that the target jumps to returns. -/
theorem join_wakesOnce_jump : ∃ s, WakesOnce .ult s ∧ s.joiner = .returned ∧ s.resumed = 1 := by
  obtain ⟨s, reachable, woken⟩ := Machine.exists_reachable_of_play Machine.anyEvent
    (M := handshakes .ult false) (s := begins) rfl
    [.joiner, .joiner, .target .exit true, .target .exit true, .target .exit true, .joiner, .joiner,
      .target .exit true, .target .exit true, .target .exit true, .joiner, .joiner]
    (fun s => s.joiner = .returned ∧ s.resumed = 1) (by decide)
  exact ⟨s, join_wakesOnce .ult false reachable, of_decide_eq_true woken⟩

end Claims

end ArgobotsReduction.Threads.Join
