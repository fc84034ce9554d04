import Mathlib.Algebra.Order.Ring.Rat
import Mathlib.Data.Fintype.Card
import Mathlib.Tactic.Linarith
import ArgobotsReduction.Parallel.Machine

/-!
# The stack-dump rendezvous

A trigger, which may run in a signal handler, saves its arguments and announces them by
the flag.  Every execution stream checks the flag now and then.  When it is announced,
the streams gather at a counter, the first of them waits for the others and prints all
stacks, and they leave.  The last one resets the flag, and the next trigger can be
accepted.

The number of execution streams is fixed.  Every atomic operation is a turn, and so is
each store of an argument.  The callers are the streams and the triggers.
-/

set_option autoImplicit false

namespace ArgobotsReduction.Sync.StackDump

open Parallel

universe u v

/-! ## The code -/

/-- `PRINT_STACK_FLAG_UNSET`, `PRINT_STACK_FLAG_INITIALIZE`, `PRINT_STACK_FLAG_WAIT` and
`PRINT_STACK_FLAG_FINALIZE` -/
inductive Flag where
  | unset
  | initializing
  | wait
  | finalize
  deriving DecidableEq

/-- The arguments of a trigger. -/
structure Request (Pointer : Type u) where
  fp : Pointer
  timeout : ℚ
  cbFunc : Option Pointer
  arg : Pointer
  deriving DecidableEq

/-- The variables of the rendezvous.  `accepted` has the requests that have been accepted, `dumps`
those that have been printed, and `calls` those that have been given to their callback, each
with `force_print`, and all of them latest first. -/
structure State (Pointer : Type u) where
  printStackFlag : Flag
  saved : Request Pointer
  printStackBarrier : ℤ
  xstreamListLock : Bool
  accepted : List (Request Pointer)
  dumps : List (Request Pointer × Bool)
  calls : List (Request Pointer × Bool)

/-- The places of `ABTI_info_check_print_all_thread_stacks`. -/
inductive StreamPlace where
  | outside
  | entering
  | acquiring
  | checking
  | releasing
  | printing (forcePrint : Bool)
  | unlocking (forcePrint : Bool)
  | calling (forcePrint : Bool)
  | finalizing
  | spinning
  | asserting
  | leaving
  | resetting
  deriving DecidableEq

/-- The places of `info_trigger_print_all_thread_stacks`. -/
inductive TriggerPlace (Pointer : Type u) where
  | outside
  | loading (request : Request Pointer)
  | swapping (request : Request Pointer)
  | savingFp (request : Request Pointer)
  | savingTimeout (request : Request Pointer)
  | savingCbFunc (request : Request Pointer)
  | savingArg (request : Request Pointer)
  | asserting (request : Request Pointer)
  | announcing (request : Request Pointer)
  deriving DecidableEq

variable {Pointer : Type u}

/-- A turn in `ABTI_info_check_print_all_thread_stacks`.  `elapsed` is the time since the stream
became the main one. -/
def streamTurn (numXstreams : ℕ) (elapsed : ℚ) (s : State Pointer) :
    StreamPlace → Option (State Pointer × StreamPlace)
  | .outside => some (s, if s.printStackFlag ≠ .wait then .outside else .entering)
  | .entering => some ({ s with printStackBarrier := s.printStackBarrier + 1 },
      if s.printStackBarrier = 0 then .acquiring else .spinning)
  | .acquiring => if s.xstreamListLock then none else
      some ({ s with xstreamListLock := true }, .checking)
  | .checking => some (s,
      if numXstreams ≤ s.printStackBarrier then .printing false
      else if 0 ≤ s.saved.timeout ∧ s.saved.timeout ≤ elapsed then .printing true
      else .releasing)
  | .releasing => some ({ s with xstreamListLock := false }, .acquiring)
  | .printing forcePrint => some ({ s with dumps := (s.saved, forcePrint) :: s.dumps },
      .unlocking forcePrint)
  | .unlocking forcePrint => some ({ s with xstreamListLock := false }, .calling forcePrint)
  | .calling forcePrint => some ({ s with
      calls := if s.saved.cbFunc.isSome then (s.saved, forcePrint) :: s.calls else s.calls },
      .finalizing)
  | .finalizing => some ({ s with printStackFlag := .finalize }, .asserting)
  | .spinning => some (s, if s.printStackFlag ≠ .finalize then .spinning else .asserting)
  | .asserting => if s.printStackFlag = .finalize then some (s, .leaving) else none
  | .leaving => some ({ s with printStackBarrier := s.printStackBarrier - 1 },
      if s.printStackBarrier = 1 then .resetting else .outside)
  | .resetting => some ({ s with printStackFlag := .unset }, .outside)

/-- A turn in `info_trigger_print_all_thread_stacks`.  `request` has the arguments of the next
call. -/
def triggerTurn (request : Request Pointer) (s : State Pointer) :
    TriggerPlace Pointer → Option (State Pointer × TriggerPlace Pointer)
  | .outside => some (s, .loading request)
  | .loading r => some (s, if s.printStackFlag = .unset then .swapping r else .outside)
  | .swapping r =>
      if s.printStackFlag = .unset then
        some ({ s with printStackFlag := .initializing, accepted := r :: s.accepted }, .savingFp r)
      else some (s, .outside)
  | .savingFp r => some ({ s with saved := { s.saved with fp := r.fp } }, .savingTimeout r)
  | .savingTimeout r => some ({ s with saved := { s.saved with timeout := r.timeout } },
      .savingCbFunc r)
  | .savingCbFunc r => some ({ s with saved := { s.saved with cbFunc := r.cbFunc } }, .savingArg r)
  | .savingArg r => some ({ s with saved := { s.saved with arg := r.arg } }, .asserting r)
  | .asserting r => if s.printStackBarrier = 0 then some (s, .announcing r) else none
  | .announcing _ => some ({ s with printStackFlag := .wait }, .outside)

/-- The place of a stream, or the one of a trigger. -/
inductive Place (Pointer : Type u) where
  | stream (place : StreamPlace)
  | trigger (place : TriggerPlace Pointer)
  deriving DecidableEq

/-- What a turn takes from outside. -/
structure Choice (Pointer : Type u) where
  elapsed : ℚ
  request : Request Pointer

variable {N : ℕ} {Trigger : Type v}

/-- The streams and the triggers. -/
def callers (N : ℕ) (Trigger : Type v) (Pointer : Type u) :
    Callers (Fin N ⊕ Trigger) (State Pointer) (Place Pointer) (Choice Pointer) where
  turn
    | .inl _, choice, s, .stream place =>
        (streamTurn N choice.elapsed s place).map (Prod.map id .stream)
    | .inr _, choice, s, .trigger place =>
        (triggerTurn choice.request s place).map (Prod.map id .trigger)
    | _, _, _, _ => none

/-- Nobody has called yet. -/
structure Begins (world : World (Fin N ⊕ Trigger) (State Pointer) (Place Pointer)) : Prop where
  flag : world.shared.printStackFlag = .unset
  barrier : world.shared.printStackBarrier = 0
  accepted : world.shared.accepted = []
  dumps : world.shared.dumps = []
  calls : world.shared.calls = []
  streams : ∀ c, world.place (.inl c) = .stream .outside
  triggers : ∀ t, world.place (.inr t) = .trigger .outside

/-- The rendezvous with its streams and triggers. -/
def rendezvous (N : ℕ) (Trigger : Type v) [DecidableEq Trigger] (Pointer : Type u) :
    Machine (World (Fin N ⊕ Trigger) (State Pointer) (Place Pointer))
      ((Fin N ⊕ Trigger) × Choice Pointer) :=
  (callers N Trigger Pointer).machine Begins

/-- The timeouts are negative. -/
def NoTimeout (_ : World (Fin N ⊕ Trigger) (State Pointer) (Place Pointer))
    (event : (Fin N ⊕ Trigger) × Choice Pointer) : Prop :=
  event.2.request.timeout < 0

instance (world : World (Fin N ⊕ Trigger) (State Pointer) (Place Pointer))
    (event : (Fin N ⊕ Trigger) × Choice Pointer) : Decidable (NoTimeout world event) :=
  inferInstanceAs (Decidable (_ < _))

/-! ## Phases

A round of the rendezvous goes through these phases.  `inside` has the streams that
have entered the round and not left it. -/

/-- The phase of the rendezvous. -/
inductive Phase (N : ℕ) (Trigger : Type v) where
  | idle
  | saving (trigger : Trigger)
  | announced
  | gathering (main : Fin N) (inside : Finset (Fin N))
  | printed (main : Fin N)
  | called (main : Fin N)
  | leaving (inside : Finset (Fin N))
  | left (last : Fin N)

namespace Phase

def flag : Phase N Trigger → Flag
  | idle => .unset
  | saving _ => .initializing
  | announced | gathering .. | printed _ | called _ => .wait
  | leaving _ | left _ => .finalize

def inside : Phase N Trigger → Finset (Fin N)
  | idle | saving _ | announced | left _ => ∅
  | gathering _ inside | leaving inside => inside
  | printed _ | called _ => Finset.univ

def main : Phase N Trigger → Option (Fin N)
  | gathering main _ | printed main | called main => some main
  | _ => none

/-- The requests that may have been printed. -/
def printable : Phase N Trigger → List (Request Pointer) → List (Request Pointer)
  | saving _, accepted | announced, accepted | gathering .., accepted => accepted.tail
  | _, accepted => accepted

/-- The requests that may have been given to their callback. -/
def callable : Phase N Trigger → List (Request Pointer) → List (Request Pointer)
  | printed _, accepted => accepted.tail
  | phase, accepted => phase.printable accepted

/-- The main stream is inside, and some stream is as long as they leave. -/
def Formed : Phase N Trigger → Prop
  | gathering main inside => main ∈ inside
  | leaving inside => inside.Nonempty
  | _ => True

/-- The turns of a caller that lead to another phase. -/
inductive Next : Fin N ⊕ Trigger → Phase N Trigger → Phase N Trigger → Prop where
  | accept (t : Trigger) : Next (.inr t) idle (saving t)
  | announce (t : Trigger) : Next (.inr t) (saving t) announced
  | first (c : Fin N) : Next (.inl c) announced (gathering c {c})
  | join {c main : Fin N} {inside : Finset (Fin N)} (new : c ∉ inside) :
      Next (.inl c) (gathering main inside) (gathering main (insert c inside))
  | print (c : Fin N) : Next (.inl c) (gathering c Finset.univ) (printed c)
  | call (c : Fin N) : Next (.inl c) (printed c) (called c)
  | finish (c : Fin N) : Next (.inl c) (called c) (leaving Finset.univ)
  | leave {c : Fin N} {inside : Finset (Fin N)} (member : c ∈ inside)
      (others : (inside.erase c).Nonempty) :
      Next (.inl c) (leaving inside) (leaving (inside.erase c))
  | last (c : Fin N) : Next (.inl c) (leaving {c}) (left c)
  | reset (c : Fin N) : Next (.inl c) (left c) idle

end Phase

/-! ## Assertions -/

/-- What a stream knows at its place. -/
def StreamAt (phase : Phase N Trigger) (c : Fin N) : StreamPlace → Prop
  | .outside => c ∉ phase.inside ∧ phase ≠ .left c
  | .entering => c ∉ phase.inside ∧ phase.flag = .wait
  | .acquiring | .checking | .releasing => ∃ inside, phase = .gathering c inside
  | .printing forcePrint => phase = .gathering c Finset.univ ∧ forcePrint = false
  | .unlocking forcePrint | .calling forcePrint => phase = .printed c ∧ forcePrint = false
  | .finalizing => phase = .called c
  | .spinning => c ∈ phase.inside ∧ phase.main ≠ some c
  | .asserting | .leaving => ∃ inside, phase = .leaving inside ∧ c ∈ inside
  | .resetting => phase = .left c

/-- The trigger has been accepted, and it is the last one that has. -/
def Accepted (phase : Phase N Trigger) (t : Trigger) (s : State Pointer)
    (request : Request Pointer) : Prop :=
  phase = .saving t ∧ s.accepted.head? = some request

/-- What a trigger knows at its place. -/
def TriggerAt (phase : Phase N Trigger) (t : Trigger) (s : State Pointer) :
    TriggerPlace Pointer → Prop
  | .outside => phase ≠ .saving t
  | .loading r | .swapping r => phase ≠ .saving t ∧ r.timeout < 0
  | .savingFp r => Accepted phase t s r
  | .savingTimeout r => Accepted phase t s r ∧ s.saved.fp = r.fp
  | .savingCbFunc r => Accepted phase t s r ∧ s.saved.fp = r.fp ∧ s.saved.timeout = r.timeout
  | .savingArg r => Accepted phase t s r ∧ s.saved.fp = r.fp ∧ s.saved.timeout = r.timeout ∧
      s.saved.cbFunc = r.cbFunc
  | .asserting r | .announcing r => Accepted phase t s r ∧ s.saved = r

/-- What a caller knows at its place. -/
def CallerAt (phase : Phase N Trigger) (caller : Fin N ⊕ Trigger) (s : State Pointer) :
    Place Pointer → Prop
  | .stream place => ∃ c, caller = .inl c ∧ StreamAt phase c place
  | .trigger place => ∃ t, caller = .inr t ∧ TriggerAt phase t s place

/-- What is shared agrees with the phase. -/
structure Global (phase : Phase N Trigger) (s : State Pointer) : Prop where
  flag : s.printStackFlag = phase.flag
  barrier : s.printStackBarrier = phase.inside.card
  formed : phase.Formed
  negative : ∀ r ∈ s.accepted, r.timeout < 0
  saved : phase.flag = .wait → s.accepted.head? = some s.saved
  dumps : s.dumps.Sublist ((phase.printable s.accepted).map fun r => (r, false))
  calls : s.calls.Sublist ((phase.callable s.accepted).map fun r => (r, false))

/-! ## What the turns of the others leave -/

section Frame

variable {phase phase' : Phase N Trigger} {caller : Fin N ⊕ Trigger} {s s' : State Pointer}

/-- What is left to a stream when another caller leads to the next phase. -/
structure Phase.Keeps (phase phase' : Phase N Trigger) (d : Fin N) : Prop where
  inside : d ∈ phase'.inside ↔ d ∈ phase.inside
  main : phase'.main = some d ↔ phase.main = some d
  left : phase' = .left d ↔ phase = .left d
  waits : d ∉ phase.inside → phase.flag = .wait → phase'.flag = .wait
  gathering : ∀ inside, phase = .gathering d inside →
    ∃ inside', phase' = .gathering d inside' ∧ inside ⊆ inside'
  printed : phase = .printed d → phase' = .printed d
  called : phase = .called d → phase' = .called d
  leaving : ∀ inside, phase = .leaving inside → d ∈ inside →
    ∃ inside', phase' = .leaving inside' ∧ d ∈ inside'

theorem Phase.Next.keeps {d : Fin N} (step : Phase.Next caller phase phase')
    (other : caller ≠ .inl d) : phase.Keeps phase' d := by
  have apart : ∀ c, caller = .inl c → d ≠ c := by
    rintro c rfl rfl
    exact other rfl
  cases step with
  | accept | announce => constructor <;> simp [Phase.inside, Phase.main, Phase.flag]
  | first c | reset c =>
      have differ := apart c rfl
      constructor <;> simp [Phase.inside, Phase.main, Phase.flag, differ, differ.symm]
  | join new =>
      have differ := apart _ rfl
      constructor <;> simp [Phase.inside, Phase.main, Phase.flag, differ]
  | print c | call c | finish c =>
      have differ := apart c rfl
      constructor <;> simp [Phase.inside, Phase.main, Phase.flag, differ.symm]
  | leave member others =>
      have differ := apart _ rfl
      constructor <;> simp [Phase.inside, Phase.main, Phase.flag, differ]
  | last c =>
      have differ := apart c rfl
      constructor <;> simp [Phase.inside, Phase.main, Phase.flag, differ, differ.symm]

/-- A stream goes on to know what it knows when another caller leads to the next phase. -/
theorem StreamAt.next {d : Fin N} {place : StreamPlace} (step : phase.Next caller phase')
    (other : caller ≠ .inl d) (known : StreamAt phase d place) : StreamAt phase' d place := by
  have keeps := step.keeps other
  cases place with
  | outside => exact ⟨mt keeps.inside.mp known.1, mt keeps.left.mp known.2⟩
  | entering => exact ⟨mt keeps.inside.mp known.1, keeps.waits known.1 known.2⟩
  | acquiring | checking | releasing =>
      obtain ⟨inside, gathering⟩ := known
      obtain ⟨inside', after, -⟩ := keeps.gathering inside gathering
      exact ⟨inside', after⟩
  | printing forcePrint =>
      obtain ⟨inside', after, more⟩ := keeps.gathering _ known.1
      rw [Finset.univ_subset_iff.mp more] at after
      exact ⟨after, known.2⟩
  | unlocking forcePrint | calling forcePrint => exact ⟨keeps.printed known.1, known.2⟩
  | finalizing => exact keeps.called known
  | spinning => exact ⟨keeps.inside.mpr known.1, mt keeps.main.mp known.2⟩
  | asserting | leaving =>
      obtain ⟨inside, leaving, member⟩ := known
      exact keeps.leaving inside leaving member
  | resetting => exact keeps.left.mpr known

/-- Only the accepted trigger leads out of the phase in which it saves its arguments. -/
theorem Phase.Next.saving {t : Trigger} (step : Phase.Next caller phase phase')
    (saving : phase = .saving t ∨ phase' = .saving t) : caller = .inr t := by
  cases step <;> simp_all

/-- A trigger goes on to know what it knows, as only the accepted one saves its arguments. -/
theorem TriggerAt.next {t : Trigger} {place : TriggerPlace Pointer}
    (step : phase' = phase ∨ phase.Next caller phase') (other : caller ≠ .inr t)
    (kept : phase = .saving t → s'.saved = s.saved ∧ s'.accepted = s.accepted)
    (known : TriggerAt phase t s place) : TriggerAt phase' t s' place := by
  have elsewhere : phase ≠ .saving t → phase' ≠ .saving t := by
    intro notSaving
    rcases step with rfl | step
    · exact notSaving
    · exact fun saving => other (step.saving (.inr saving))
  have accepted : ∀ r, Accepted phase t s r → Accepted phase' t s' r ∧ s'.saved = s.saved := by
    rintro r ⟨saving, latest⟩
    obtain ⟨saved, accepted⟩ := kept saving
    rcases step with rfl | step
    · exact ⟨⟨saving, accepted ▸ latest⟩, saved⟩
    · exact absurd (step.saving (.inl saving)) other
  cases place with
  | outside => exact elsewhere known
  | loading r | swapping r => exact ⟨elsewhere known.1, known.2⟩
  | savingFp r => exact (accepted r known).1
  | savingTimeout r | savingCbFunc r | savingArg r | asserting r | announcing r =>
      obtain ⟨latest, same⟩ := accepted r known.1
      refine ⟨latest, ?_⟩
      rw [same]
      exact known.2

/-- What a turn has to establish. -/
def Fine (phase : Phase N Trigger) (caller : Fin N ⊕ Trigger) (s s' : State Pointer)
    (place' : Place Pointer) : Prop :=
  ∃ phase', (phase' = phase ∨ phase.Next caller phase') ∧ Global phase' s' ∧
    CallerAt phase' caller s' place' ∧
      ∀ t, phase = .saving t → caller ≠ .inr t → s'.saved = s.saved ∧ s'.accepted = s.accepted

/-- A caller goes on to know what it knows after a turn of another one. -/
theorem CallerAt.next {d : Fin N ⊕ Trigger} {place : Place Pointer}
    (step : phase' = phase ∨ phase.Next caller phase') (other : caller ≠ d)
    (kept : ∀ t, phase = .saving t → caller ≠ .inr t →
      s'.saved = s.saved ∧ s'.accepted = s.accepted)
    (known : CallerAt phase d s place) : CallerAt phase' d s' place := by
  cases place with
  | stream place =>
      obtain ⟨c, rfl, known⟩ := known
      rcases step with rfl | step
      · exact ⟨c, rfl, known⟩
      · exact ⟨c, rfl, known.next step other⟩
  | trigger place =>
      obtain ⟨t, rfl, known⟩ := known
      exact ⟨t, rfl, known.next step other fun saving => kept t saving other⟩

end Frame

/-! ## One turn -/

section Turn

variable {phase phase' : Phase N Trigger} {c : Fin N} {t : Trigger} {s s' : State Pointer}

/-- A turn of a stream that only changes the lock. -/
theorem Global.still {place' : StreamPlace} (fine : Global phase s) (lock : Bool)
    (known : StreamAt phase c place') :
    Fine phase (.inl c) s { s with xstreamListLock := lock } (.stream place') :=
  ⟨phase, .inl rfl, { fine with }, ⟨c, rfl, known⟩, fun _ _ _ => ⟨rfl, rfl⟩⟩

/-- A turn of a stream that leads to the next phase, and accepts no request. -/
theorem Phase.Next.fine {place' : StreamPlace} (step : phase.Next (.inl c) phase')
    (fine : Global phase' s') (known : StreamAt phase' c place') (saved : s'.saved = s.saved)
    (accepted : s'.accepted = s.accepted) : Fine phase (.inl c) s s' (.stream place') :=
  ⟨phase', .inr step, fine, ⟨c, rfl, known⟩, fun _ _ _ => ⟨saved, accepted⟩⟩

/-- A stream enters the round. -/
theorem Global.enter (fine : Global phase s) (outside : c ∉ phase.inside)
    (waits : phase.flag = .wait) :
    Fine phase (.inl c) s { s with printStackBarrier := s.printStackBarrier + 1 }
      (.stream (if s.printStackBarrier = 0 then .acquiring else .spinning)) := by
  have barrier := fine.barrier
  have saved := fine.saved waits
  cases phase with
  | announced =>
      have empty : s.printStackBarrier = 0 := barrier
      rw [if_pos empty]
      refine (Phase.Next.first c).fine ⟨fine.flag, ?_, Finset.mem_singleton_self c,
        fine.negative, fun _ => saved, fine.dumps, fine.calls⟩ ⟨{c}, rfl⟩ rfl rfl
      simp only [empty, Phase.inside, Finset.card_singleton, zero_add, Nat.cast_one]
  | gathering main inside =>
      have notMain : main ≠ c := ne_of_mem_of_not_mem fine.formed outside
      have nonzero : s.printStackBarrier ≠ 0 := by
        rw [barrier]
        exact_mod_cast Finset.card_ne_zero_of_mem fine.formed
      rw [if_neg nonzero]
      refine (Phase.Next.join outside).fine ⟨fine.flag, ?_, Finset.mem_insert_of_mem fine.formed,
        fine.negative, fun _ => saved, fine.dumps, fine.calls⟩
        ⟨Finset.mem_insert_self c inside, by simpa [Phase.main] using notMain⟩ rfl rfl
      have more := Finset.card_insert_of_notMem outside
      simp only [Phase.inside] at barrier more ⊢
      rw [barrier, more, Nat.cast_succ]
  | printed | called => exact absurd (Finset.mem_univ c) outside
  | idle | saving | leaving | left => cases waits

/-- A stream leaves the round. -/
theorem Global.leave {inside : Finset (Fin N)} (fine : Global phase s)
    (leaving : phase = .leaving inside) (member : c ∈ inside) :
    Fine phase (.inl c) s { s with printStackBarrier := s.printStackBarrier - 1 }
      (.stream (if s.printStackBarrier = 1 then .resetting else .outside)) := by
  subst leaving
  have counted : s.printStackBarrier = (inside.erase c).card + 1 := by
    rw [fine.barrier, Phase.inside, ← Finset.card_erase_add_one member, Nat.cast_succ]
  rcases (inside.erase c).eq_empty_or_nonempty with empty | nonempty
  · have alone : inside = {c} :=
      ((Finset.erase_eq_empty_iff inside c).mp empty).resolve_left (Finset.ne_empty_of_mem member)
    have one : s.printStackBarrier = 1 := by
      rw [counted, empty, Finset.card_empty, Nat.cast_zero, zero_add]
    subst alone
    rw [if_pos one]
    refine (Phase.Next.last c).fine ⟨fine.flag, ?_, trivial, fine.negative, nofun, fine.dumps,
      fine.calls⟩ rfl rfl rfl
    simp only [one, Phase.inside, Finset.card_empty, sub_self, Nat.cast_zero]
  · have more : s.printStackBarrier ≠ 1 := by
      have positive := Finset.card_pos.mpr nonempty
      omega
    rw [if_neg more]
    exact (Phase.Next.leave member nonempty).fine ⟨fine.flag, by simp [counted, Phase.inside],
      nonempty, fine.negative, nofun, fine.dumps, fine.calls⟩
      ⟨Finset.notMem_erase c inside, nofun⟩ rfl rfl

/-- The main stream prints the stacks. -/
theorem Global.print (fine : Global phase s) (gathered : phase = .gathering c Finset.univ) :
    Fine phase (.inl c) s { s with dumps := (s.saved, false) :: s.dumps }
      (.stream (.unlocking false)) := by
  subst gathered
  obtain ⟨rest, latest⟩ := List.head?_eq_some_iff.mp (fine.saved rfl)
  refine (Phase.Next.print c).fine ⟨fine.flag, fine.barrier, trivial, fine.negative, fine.saved,
    ?_, fine.calls⟩ ⟨rfl, rfl⟩ rfl rfl
  have dumps := fine.dumps
  simp only [Phase.printable, latest, List.tail_cons] at dumps ⊢
  exact dumps.cons_cons _

/-- The main stream calls the callback, if there is one. -/
theorem Global.call (fine : Global phase s) (printed : phase = .printed c) :
    Fine phase (.inl c) s { s with
        calls := if s.saved.cbFunc.isSome then (s.saved, false) :: s.calls else s.calls }
      (.stream .finalizing) := by
  subst printed
  obtain ⟨rest, latest⟩ := List.head?_eq_some_iff.mp (fine.saved rfl)
  refine (Phase.Next.call c).fine ⟨fine.flag, fine.barrier, trivial, fine.negative, fine.saved,
    fine.dumps, ?_⟩ rfl rfl rfl
  have calls := fine.calls
  simp only [Phase.callable, Phase.printable, latest, List.tail_cons] at calls ⊢
  split
  · exact calls.cons_cons _
  · exact calls.cons _

/-- **Every turn of a stream keeps the assertions.** -/
theorem StreamAt.turn {place place' : StreamPlace} {elapsed : ℚ} (fine : Global phase s)
    (known : StreamAt phase c place) (taken : streamTurn N elapsed s place = some (s', place')) :
    Fine phase (.inl c) s s' (.stream place') := by
  cases place with
  | outside =>
      cases taken
      refine fine.still _ ?_
      split
      next => exact known
      next waits =>
        refine ⟨known.1, ?_⟩
        rw [← fine.flag]
        exact of_not_not waits
  | entering =>
      cases taken
      exact fine.enter known.1 known.2
  | acquiring =>
      obtain ⟨-, taken⟩ := Option.ite_none_left_eq_some.mp taken
      cases taken
      exact fine.still _ known
  | checking =>
      cases taken
      obtain ⟨inside, rfl⟩ := known
      refine fine.still _ ?_
      split
      next enough =>
        have everyone : inside = Finset.univ := by
          refine Finset.eq_univ_of_card _ (le_antisymm (Finset.card_le_univ _) ?_)
          rw [Fintype.card_fin]
          rw [fine.barrier, Phase.inside] at enough
          exact_mod_cast enough
        exact ⟨by rw [everyone], rfl⟩
      next =>
        have negative := fine.negative _ (List.mem_of_mem_head? (fine.saved rfl))
        rw [if_neg fun late => absurd late.1 negative.not_ge]
        exact ⟨inside, rfl⟩
  | releasing =>
      cases taken
      exact fine.still _ known
  | printing forcePrint =>
      cases taken
      obtain ⟨gathered, rfl⟩ := known
      exact fine.print gathered
  | unlocking forcePrint =>
      cases taken
      exact fine.still _ known
  | calling forcePrint =>
      cases taken
      obtain ⟨printed, rfl⟩ := known
      exact fine.call printed
  | finalizing =>
      cases taken
      obtain rfl : phase = .called c := known
      exact (Phase.Next.finish c).fine ⟨rfl, fine.barrier, ⟨c, Finset.mem_univ c⟩, fine.negative,
        nofun, fine.dumps, fine.calls⟩ ⟨Finset.univ, rfl, Finset.mem_univ c⟩ rfl rfl
  | spinning =>
      cases taken
      refine fine.still _ ?_
      split
      next => exact known
      next finalized =>
        have flag := fine.flag.symm.trans (of_not_not finalized)
        cases phase with
        | leaving inside => exact ⟨inside, rfl, known.1⟩
        | left last => exact absurd known.1 (Finset.notMem_empty c)
        | idle | saving | announced | gathering | printed | called => cases flag
  | asserting =>
      obtain ⟨-, taken⟩ := Option.ite_none_right_eq_some.mp taken
      cases taken
      exact fine.still _ known
  | leaving =>
      cases taken
      obtain ⟨inside, leaving, member⟩ := known
      exact fine.leave leaving member
  | resetting =>
      cases taken
      obtain rfl : phase = .left c := known
      exact (Phase.Next.reset c).fine ⟨rfl, fine.barrier, trivial, fine.negative, nofun, fine.dumps,
        fine.calls⟩ ⟨Finset.notMem_empty c, nofun⟩ rfl rfl

/-- A turn of a trigger that changes nothing. -/
theorem Global.stay {place' : TriggerPlace Pointer} (fine : Global phase s)
    (known : TriggerAt phase t s place') : Fine phase (.inr t) s s (.trigger place') :=
  ⟨phase, .inl rfl, fine, ⟨t, rfl, known⟩, fun _ _ _ => ⟨rfl, rfl⟩⟩

/-- The accepted trigger saves an argument. -/
theorem Accepted.save {r : Request Pointer} {place' : TriggerPlace Pointer}
    (accepted : Accepted phase t s r) (fine : Global phase s) (saved : Request Pointer)
    (known : TriggerAt phase t { s with saved } place') :
    Fine phase (.inr t) s { s with saved } (.trigger place') := by
  obtain ⟨rfl, -⟩ := accepted
  refine ⟨.saving t, .inl rfl, { fine with saved := nofun }, ⟨t, rfl, known⟩, ?_⟩
  rintro _ ⟨⟩ other
  exact absurd rfl other

/-- **Every turn of a trigger keeps the assertions.** -/
theorem TriggerAt.turn {place place' : TriggerPlace Pointer} {request : Request Pointer}
    (fine : Global phase s) (negative : request.timeout < 0) (known : TriggerAt phase t s place)
    (taken : triggerTurn request s place = some (s', place')) :
    Fine phase (.inr t) s s' (.trigger place') := by
  cases place with
  | outside =>
      cases taken
      exact fine.stay ⟨known, negative⟩
  | loading r =>
      cases taken
      refine fine.stay ?_
      split
      · exact known
      · exact known.1
  | swapping r =>
      rw [triggerTurn] at taken
      split at taken
      next unset =>
        cases taken
        have flag := fine.flag.symm.trans unset
        cases phase with
        | idle =>
            refine ⟨.saving t, .inr (.accept t), ⟨rfl, fine.barrier, trivial, ?_, nofun, fine.dumps,
              fine.calls⟩, ⟨t, rfl, rfl, rfl⟩, nofun⟩
            rintro q member
            rcases List.mem_cons.mp member with rfl | earlier
            · exact known.2
            · exact fine.negative q earlier
        | saving | announced | gathering | printed | called | leaving | left => cases flag
      next =>
        cases taken
        exact fine.stay known.1
  | savingFp r =>
      cases taken
      exact Accepted.save known fine _ ⟨known, rfl⟩
  | savingTimeout r =>
      cases taken
      obtain ⟨accepted, fp⟩ := known
      exact accepted.save fine _ ⟨accepted, fp, rfl⟩
  | savingCbFunc r =>
      cases taken
      obtain ⟨accepted, fp, timeout⟩ := known
      exact accepted.save fine _ ⟨accepted, fp, timeout, rfl⟩
  | savingArg r =>
      cases taken
      obtain ⟨accepted, fp, timeout, cbFunc⟩ := known
      exact accepted.save fine _ ⟨accepted, by simp only [fp, timeout, cbFunc]⟩
  | asserting r =>
      obtain ⟨-, taken⟩ := Option.ite_none_right_eq_some.mp taken
      cases taken
      exact fine.stay known
  | announcing r =>
      cases taken
      obtain ⟨⟨rfl, latest⟩, saved⟩ := known
      refine ⟨.announced, .inr (.announce t), ⟨rfl, fine.barrier, trivial, fine.negative,
        fun _ => latest.trans (congrArg some saved.symm), fine.dumps, fine.calls⟩,
        ⟨t, rfl, nofun⟩, ?_⟩
      rintro _ ⟨⟩ other
      exact absurd rfl other

end Turn

end ArgobotsReduction.Sync.StackDump
