import Mathlib.Data.Fintype.Sum
import Mathlib.Data.List.FinRange
import Mathlib.Data.List.Rotate
import Mathlib.Tactic.DeriveFintype
import ArgobotsReduction.Containers.Ledger
import ArgobotsReduction.Scheduling.RotatedPools

/-!
# The work-stealing scheduler

A scheduler pops from its own pool, the first of its list, and when that is
empty probes the other pools of the list one at a time.  It runs what it has
popped with `ABT_self_schedule`, and a stolen ULT is first associated with the
pool it was taken from.  A running ULT may create ULTs, change its pool, yield,
block and finish; a blocked one may be resumed.  Each pop and each push is one
step, and so is each probe of a scan.

The main result is `run_safe`: after any events, every created ULT is at exactly
one place, it has been taken at most as often as pushed, and every complete scan
has probed every other pool once.  That a ULT is at one place is a fact about
the ledger of the places (`State.ledger`), whose total is the ULTs created so far
(`Invariant`).
-/

set_option autoImplicit false

namespace ArgobotsReduction.Scheduling.WorkStealing

open Containers

/-! ## States -/

/-- Where a scheduler is in the loop of `sched_run`.  A popped ULT is held with
the pool it comes from and the pool argument of `ABT_self_schedule`. -/
inductive Phase (num : ℕ) where
  | popOwn
  | scan (target : ℕ)
  | hold (ult : ℕ) (origin : Fin num) (pool : Option (Fin num))
  | run (ult : ℕ)
  | check
  | stopped
  deriving DecidableEq

/-- The request flags of a scheduler that its stop check reads. -/
structure Request where
  exit : Bool
  finish : Bool

/-- The pools, the schedulers and the ULTs.  The last three fields are history:
the pools probed in the current scan of each scheduler, and how often each ULT
was pushed and taken. -/
structure State (num : ℕ) where
  queue : Fin num → List ℕ
  phase : Fin num → Phase num
  workCount : Fin num → ℕ
  request : Fin num → Request
  pool : ℕ → Fin num
  blocked : List ℕ
  finished : List ℕ
  numCreated : ℕ
  probed : Fin num → List (Fin num)
  pushes : ℕ → ℕ
  takes : ℕ → ℕ

/-- The `event_freq` of the configuration. -/
def eventFreq : ℕ := 10

variable {num : ℕ}

/-- The pools of scheduler `i`, as `ABT_create_ws_scheds` lists them. -/
def poolList (i : Fin num) : List (Fin num) := (List.finRange num).map (schedPools i)

namespace State

/-- `ABT_pool_push_thread` to the pool of the ULT. -/
def push (s : State num) (u : ℕ) : State num :=
  { s with
    queue := Function.update s.queue (s.pool u) (s.queue (s.pool u) ++ [u])
    pushes := Function.update s.pushes u (s.pushes u + 1) }

def setPhase (s : State num) (i : Fin num) (phase : Phase num) : State num :=
  { s with phase := Function.update s.phase i phase }

/-- Scheduler `i` has popped the first ULT of a pool. -/
def take (s : State num) (i origin : Fin num) (u : ℕ) (rest : List ℕ)
    (pool : Option (Fin num)) : State num :=
  { s with
    queue := Function.update s.queue origin rest
    phase := Function.update s.phase i (.hold u origin pool)
    takes := Function.update s.takes u (s.takes u + 1) }

def probe (s : State num) (i p : Fin num) : State num :=
  { s with probed := Function.update s.probed i (s.probed i ++ [p]) }

/-- `ABTI_sched_has_unit`: every pool is in the list of every scheduler, so that
its `num_scheds` is `num`. -/
def hasUnit (s : State num) (i : Fin num) : Bool :=
  (poolList i).any fun p =>
    !(s.queue p).isEmpty || (num == 1 && s.blocked.any fun u => s.pool u == p)

/-- `ABTI_sched_has_to_stop` of a main scheduler. -/
def hasToStop (s : State num) (i : Fin num) : Bool :=
  (s.request i).exit || (!s.hasUnit i && (s.request i).finish && !s.hasUnit i)

/-- The pool of a ULT after `ABT_self_schedule` has looked at its pool argument. -/
def associated (s : State num) (u : ℕ) (pool : Option (Fin num)) : Fin num :=
  pool.getD (s.pool u)

end State

/-! ## Steps -/

/-- What may happen next: a scheduler goes on, the ULT running under a scheduler
does something, a blocked ULT is resumed, or a scheduler is asked to stop. -/
inductive Event (num : ℕ) where
  | sched (i : Fin num)
  | create (pool : Fin num)
  | associate (i pool : Fin num)
  | yield (i : Fin num)
  | block (i : Fin num)
  | finish (i : Fin num)
  | resume (u : ℕ)
  | request (i : Fin num) (request : Request)

/-- The next step of the loop of `sched_run`. -/
def schedStep (s : State num) (i : Fin num) : State num :=
  match s.phase i with
  | .popOwn =>
      match (poolList i)[0]? with
      | none => s
      | some p =>
          match s.queue p with
          | u :: rest => s.take i p u rest none
          | [] => { s with
              phase := Function.update s.phase i (.scan 1)
              probed := Function.update s.probed i [] }
  | .scan target =>
      if target < num then
        match (poolList i)[target]? with
        | none => s
        | some p =>
            match s.queue p with
            | u :: rest => (s.probe i p).take i p u rest (some p)
            | [] => (s.probe i p).setPhase i (.scan (target + 1))
      else s.setPhase i .check
  | .hold u _ pool =>
      { s with
        phase := Function.update s.phase i (.run u)
        pool := Function.update s.pool u (s.associated u pool) }
  | .run _ => s
  | .check =>
      if s.workCount i + 1 ≥ eventFreq then
        { s with
          workCount := Function.update s.workCount i 0
          phase := Function.update s.phase i (if s.hasToStop i then .stopped else .popOwn) }
      else
        { s with
          workCount := Function.update s.workCount i (s.workCount i + 1)
          phase := Function.update s.phase i .popOwn }
  | .stopped => s

/-- One step.  An event that cannot happen changes nothing. -/
def step (s : State num) : Event num → State num
  | .sched i => schedStep s i
  | .create p =>
      State.push { s with
        pool := Function.update s.pool s.numCreated p
        numCreated := s.numCreated + 1 } s.numCreated
  | .associate i p =>
      match s.phase i with
      | .run u => { s with pool := Function.update s.pool u p }
      | _ => s
  | .yield i =>
      match s.phase i with
      | .run u => (s.setPhase i .check).push u
      | _ => s
  | .block i =>
      match s.phase i with
      | .run u => { s.setPhase i .check with blocked := u :: s.blocked }
      | _ => s
  | .finish i =>
      match s.phase i with
      | .run u => { s.setPhase i .check with finished := u :: s.finished }
      | _ => s
  | .resume u => if u ∈ s.blocked then State.push { s with blocked := s.blocked.erase u } u else s
  | .request i request => { s with request := Function.update s.request i request }

/-- No ULT yet, and every scheduler at the start of its loop. -/
def State.init (first : Fin num) : State num where
  queue := fun _ => []
  phase := fun _ => .popOwn
  workCount := fun _ => 0
  request := fun _ => ⟨false, false⟩
  pool := fun _ => first
  blocked := []
  finished := []
  numCreated := 0
  probed := fun _ => []
  pushes := fun _ => 0
  takes := fun _ => 0

/-- The state after some events. -/
def run (first : Fin num) (events : List (Event num)) : State num :=
  events.foldl step (State.init first)

theorem run_append_singleton (first : Fin num) (events : List (Event num)) (event : Event num) :
    run first (events ++ [event]) = step (run first events) event := by
  rw [run, List.foldl_append, List.foldl_cons, List.foldl_nil, run]

/-! ## The ledger of the ULTs -/

/-- The places where a ULT can be. -/
inductive Place (num : ℕ) where
  | queued (p : Fin num)
  | held (i : Fin num)
  | running (i : Fin num)
  | blocked
  | finished
  deriving DecidableEq, Fintype

/-- The ULT a scheduler holds. -/
def Phase.held : Phase num → Multiset ℕ
  | .hold u _ _ => {u}
  | _ => 0

/-- The ULT that runs under a scheduler. -/
def Phase.running : Phase num → Multiset ℕ
  | .run u => {u}
  | _ => 0

/-- The ULT a scheduler holds or runs. -/
def Phase.owned (phase : Phase num) : Multiset ℕ := phase.held + phase.running

@[simp] theorem Phase.owned_popOwn : (Phase.popOwn : Phase num).owned = 0 := rfl

@[simp] theorem Phase.owned_scan (target : ℕ) : (Phase.scan target : Phase num).owned = 0 := rfl

@[simp] theorem Phase.owned_hold (u : ℕ) (origin : Fin num) (pool : Option (Fin num)) :
    (Phase.hold u origin pool).owned = {u} := rfl

@[simp] theorem Phase.owned_run (u : ℕ) : (Phase.run u : Phase num).owned = {u} := rfl

@[simp] theorem Phase.owned_check : (Phase.check : Phase num).owned = 0 := rfl

@[simp] theorem Phase.owned_stopped : (Phase.stopped : Phase num).owned = 0 := rfl

/-- The ULTs at each place. -/
def ledgerOf (queue : Fin num → List ℕ) (phase : Fin num → Phase num) (blocked finished : List ℕ) :
    Ledger (Place num) ℕ
  | .queued p => queue p
  | .held i => (phase i).held
  | .running i => (phase i).running
  | .blocked => blocked
  | .finished => finished

def State.ledger (s : State num) : Ledger (Place num) ℕ :=
  ledgerOf s.queue s.phase s.blocked s.finished

section Ledger

variable (queue : Fin num → List ℕ) (phase : Fin num → Phase num) (blocked finished : List ℕ)

theorem total_queue (p : Fin num) (items : List ℕ) :
    (ledgerOf (Function.update queue p items) phase blocked finished).total +
        (queue p : Multiset ℕ) =
      (ledgerOf queue phase blocked finished).total + (items : Multiset ℕ) := by
  have changed : ledgerOf (Function.update queue p items) phase blocked finished =
      Function.update (ledgerOf queue phase blocked finished) (.queued p) items := by
    funext place
    cases place with
    | queued q =>
        rcases eq_or_ne q p with rfl | other
        · simp [ledgerOf]
        · simp [ledgerOf, other]
    | held | running | blocked | finished => simp [ledgerOf]
  rw [changed]
  exact Ledger.total_update _ _ _

/-- A push adds the ULT to the total. -/
theorem total_push (p : Fin num) (u : ℕ) :
    (ledgerOf (Function.update queue p (queue p ++ [u])) phase blocked finished).total =
      (ledgerOf queue phase blocked finished).total + {u} := by
  have change := total_queue queue phase blocked finished p (queue p ++ [u])
  rw [← Multiset.coe_add, add_comm (queue p : Multiset ℕ), ← add_assoc] at change
  exact add_right_cancel change

/-- A pop takes the ULT out of the total. -/
theorem total_pop {p : Fin num} {u : ℕ} {rest : List ℕ} (here : queue p = u :: rest) :
    (ledgerOf (Function.update queue p rest) phase blocked finished).total + {u} =
      (ledgerOf queue phase blocked finished).total := by
  have change := total_queue queue phase blocked finished p rest
  rw [here, ← Multiset.cons_coe, ← Multiset.singleton_add, ← add_assoc] at change
  exact add_right_cancel change

theorem total_phase (i : Fin num) (after : Phase num) :
    (ledgerOf queue (Function.update phase i after) blocked finished).total + (phase i).owned =
      (ledgerOf queue phase blocked finished).total + after.owned := by
  have changed : ledgerOf queue (Function.update phase i after) blocked finished =
      Function.update (Function.update (ledgerOf queue phase blocked finished)
        (.held i) after.held) (.running i) after.running := by
    funext place
    cases place with
    | held j =>
        rcases eq_or_ne j i with rfl | other
        · simp [ledgerOf]
        · simp [ledgerOf, other]
    | running j =>
        rcases eq_or_ne j i with rfl | other
        · simp [ledgerOf]
        · simp [ledgerOf, other]
    | queued | blocked | finished => simp [ledgerOf]
  have held := Ledger.total_update (ledgerOf queue phase blocked finished) (.held i) after.held
  have running := Ledger.total_update (Function.update (ledgerOf queue phase blocked finished)
    (.held i) after.held) (.running i) after.running
  rw [Function.update_of_ne (by simp)] at running
  rw [changed, Phase.owned, Phase.owned, add_comm (phase i).held, ← add_assoc]
  have first := congrArg (· + (phase i).held) running
  have second := congrArg (· + after.running) held
  simp only [ledgerOf] at first second
  rw [first, add_right_comm, second, add_assoc]

theorem total_blocked (items : List ℕ) :
    (ledgerOf queue phase items finished).total + (blocked : Multiset ℕ) =
      (ledgerOf queue phase blocked finished).total + (items : Multiset ℕ) := by
  have changed : ledgerOf queue phase items finished =
      Function.update (ledgerOf queue phase blocked finished) .blocked items := by
    funext place
    cases place <;> simp [ledgerOf]
  rw [changed]
  exact Ledger.total_update _ _ _

theorem total_finished (items : List ℕ) :
    (ledgerOf queue phase blocked items).total + (finished : Multiset ℕ) =
      (ledgerOf queue phase blocked finished).total + (items : Multiset ℕ) := by
  have changed : ledgerOf queue phase blocked items =
      Function.update (ledgerOf queue phase blocked finished) .finished items := by
    funext place
    cases place <;> simp [ledgerOf]
  rw [changed]
  exact Ledger.total_update _ _ _

end Ledger

/-! ## What every step keeps -/

/-- All ULTs in pools. -/
def State.queued (s : State num) : Multiset ℕ :=
  Ledger.total fun p => (s.queue p : Multiset ℕ)

/-- The invariant of a run.  Between the halves of a step some ULTs are in
transit, at none of the places. -/
structure Invariant (s : State num) (transit : Multiset ℕ) : Prop where
  total : s.ledger.total + transit = (List.range s.numCreated : Multiset ℕ)
  history : ∀ u, s.pushes u = s.takes u + s.queued.count u
  queued : ∀ p, ∀ u ∈ s.queue p, s.pool u = p
  own : ∀ i u origin, s.phase i = .hold u origin none → s.pool u = origin
  stolen : ∀ i u origin p, s.phase i = .hold u origin (some p) → p = origin
  scan : ∀ i target, s.phase i = .scan target →
    0 < target ∧ target ≤ num ∧ s.probed i = (poolList i).tail.take (target - 1)

theorem queued_update (s : State num) (p : Fin num) (items : List ℕ) :
    State.queued { s with queue := Function.update s.queue p items } +
        (s.queue p : Multiset ℕ) = s.queued + (items : Multiset ℕ) := by
  have changed : (fun q => (Function.update s.queue p items q : Multiset ℕ)) =
      Function.update (fun q => (s.queue q : Multiset ℕ)) p items := by
    funext q
    rcases eq_or_ne q p with rfl | other
    · simp
    · simp [other]
  rw [State.queued, State.queued]
  exact (congrArg (Ledger.total · + _) changed).trans (Ledger.total_update _ _ _)

theorem queued_push (s : State num) (u : ℕ) : (s.push u).queued = s.queued + {u} := by
  have change := queued_update s (s.pool u) (s.queue (s.pool u) ++ [u])
  rw [← Multiset.coe_add, add_comm (s.queue (s.pool u) : Multiset ℕ), ← add_assoc] at change
  exact add_right_cancel change

namespace Invariant

variable {s : State num} {transit : Multiset ℕ}

theorem nodup (invariant : Invariant s transit) : (s.ledger.total + transit).Nodup := by
  rw [invariant.total]
  exact Multiset.coe_nodup.mpr List.nodup_range

theorem lt_numCreated (invariant : Invariant s transit) {place : Place num} {u : ℕ}
    (here : u ∈ s.ledger place) : u < s.numCreated := by
  have member : u ∈ s.ledger.total + transit :=
    Multiset.mem_add.mpr (.inl (Ledger.mem_total.mpr ⟨place, here⟩))
  rw [invariant.total] at member
  exact List.mem_range.mp (Multiset.mem_coe.mp member)

/-- ULTs at different places are different. -/
theorem ne_of_place (invariant : Invariant s transit) {first second : Place num} {u v : ℕ}
    (inFirst : u ∈ s.ledger first) (inSecond : v ∈ s.ledger second)
    (different : first ≠ second) : u ≠ v := by
  rintro rfl
  have nodup := (Multiset.nodup_add.mp invariant.nodup).1
  exact different (Ledger.place_unique nodup inFirst inSecond)

theorem mem_queued {p : Fin num} {u : ℕ} (here : u ∈ s.queue p) :
    u ∈ s.ledger (.queued p) := Multiset.mem_coe.mpr here

theorem mem_held {i : Fin num} {u : ℕ} {origin : Fin num} {pool : Option (Fin num)}
    (here : s.phase i = .hold u origin pool) : u ∈ s.ledger (.held i) := by
  simp [State.ledger, ledgerOf, here, Phase.held]

theorem mem_running {i : Fin num} {u : ℕ} (here : s.phase i = .run u) :
    u ∈ s.ledger (.running i) := by
  simp [State.ledger, ledgerOf, here, Phase.running]

theorem init (first : Fin num) : Invariant (State.init first) 0 where
  total := by
    rw [add_zero]
    refine Multiset.eq_zero_of_forall_notMem fun u member => ?_
    obtain ⟨place, here⟩ := Ledger.mem_total.mp member
    cases place <;> simp [State.ledger, ledgerOf, State.init, Phase.held, Phase.running] at here
  history := by
    intro u
    simp [State.init, State.queued, Ledger.total]
  queued := by
    intro p u here
    simp [State.init] at here
  own := by
    intro i u origin here
    simp [State.init] at here
  stolen := by
    intro i u origin p here
    simp [State.init] at here
  scan := by
    intro i target here
    simp [State.init] at here

/-- A scheduler changes its phase.  What it owns goes into transit, or comes from
there. -/
theorem changePhase (invariant : Invariant s transit) {t : State num} {away : Multiset ℕ}
    {i : Fin num} {after : Phase num} (phase : t.phase = Function.update s.phase i after)
    (same : t.queue = s.queue ∧ t.pool = s.pool ∧ t.blocked = s.blocked ∧
      t.finished = s.finished ∧ t.numCreated = s.numCreated ∧ t.pushes = s.pushes ∧
      t.takes = s.takes)
    (balance : after.owned + away = (s.phase i).owned + transit)
    (own : ∀ u origin, after = .hold u origin none → s.pool u = origin)
    (stolen : ∀ u origin p, after = .hold u origin (some p) → p = origin)
    (probed : ∀ j, j ≠ i → t.probed j = s.probed j)
    (scan : ∀ target, after = .scan target →
      0 < target ∧ target ≤ num ∧ t.probed i = (poolList i).tail.take (target - 1)) :
    Invariant t away := by
  obtain ⟨queue, pool, blocked, finished, numCreated, pushes, takes⟩ := same
  have others : ∀ {j : Fin num} {at_j : Phase num}, t.phase j = at_j →
      (j = i ∧ after = at_j) ∨ (j ≠ i ∧ s.phase j = at_j) := by
    intro j at_j here
    rw [phase] at here
    rcases eq_or_ne j i with rfl | other
    · rw [Function.update_self] at here
      exact .inl ⟨rfl, here⟩
    · rw [Function.update_of_ne other] at here
      exact .inr ⟨other, here⟩
  refine ⟨?_, ?_, ?_, ?_, ?_, ?_⟩
  · have change := total_phase s.queue s.phase s.blocked s.finished i after
    have before := invariant.total
    rw [State.ledger, phase, queue, blocked, finished, numCreated, ← before]
    refine add_right_cancel (b := (s.phase i).owned) ?_
    rw [add_right_comm, change, add_assoc, balance, add_assoc, add_comm transit]
    rfl
  · intro u
    rw [pushes, takes, State.queued, queue]
    exact invariant.history u
  · intro p u here
    rw [queue] at here
    rw [pool]
    exact invariant.queued p u here
  · intro j u origin here
    rw [pool]
    rcases others here with ⟨-, new⟩ | ⟨-, old⟩
    · exact own u origin new
    · exact invariant.own j u origin old
  · intro j u origin p here
    rcases others here with ⟨-, new⟩ | ⟨-, old⟩
    · exact stolen u origin p new
    · exact invariant.stolen j u origin p old
  · intro j target here
    rcases others here with ⟨rfl, new⟩ | ⟨other, old⟩
    · exact scan target new
    · rw [probed j other]
      exact invariant.scan j target old

/-- A ULT in transit is pushed to its pool. -/
theorem push {u : ℕ} (invariant : Invariant s {u}) : Invariant (s.push u) 0 where
  total := by
    have added := total_push s.queue s.phase s.blocked s.finished (s.pool u) u
    rw [add_zero]
    exact added.trans invariant.total
  history := by
    intro v
    have before := invariant.history v
    rw [queued_push, Multiset.count_add]
    rcases eq_or_ne v u with rfl | other
    · simp only [State.push, Function.update_self, Multiset.count_singleton_self]
      omega
    · simp only [State.push, Function.update_of_ne other, Multiset.count_singleton, if_neg other]
      omega
  queued := by
    intro p v here
    rcases eq_or_ne p (s.pool u) with rfl | other
    · simp only [State.push, Function.update_self, List.mem_append, List.mem_singleton] at here
      rcases here with old | rfl
      · exact invariant.queued _ v old
      · rfl
    · simp only [State.push, Function.update_of_ne other] at here
      exact invariant.queued p v here
  own := invariant.own
  stolen := invariant.stolen
  scan := invariant.scan

/-- The first ULT of a pool is popped and is in transit. -/
theorem pop (invariant : Invariant s 0) {p : Fin num} {u : ℕ} {rest : List ℕ}
    (here : s.queue p = u :: rest) :
    Invariant { s with
      queue := Function.update s.queue p rest
      takes := Function.update s.takes u (s.takes u + 1) } {u} where
  total := by
    have removed := total_pop s.queue s.phase s.blocked s.finished here
    have before := invariant.total
    rw [add_zero] at before
    exact removed.trans before
  history := by
    intro v
    have before := invariant.history v
    have change := queued_update s p rest
    rw [here, ← Multiset.cons_coe, ← Multiset.singleton_add, ← add_assoc] at change
    have removed := congrArg (Multiset.count v) (add_right_cancel change)
    rw [Multiset.count_add] at removed
    change s.pushes v = Function.update s.takes u (s.takes u + 1) v +
      (State.queued { s with queue := Function.update s.queue p rest }).count v
    rcases eq_or_ne v u with rfl | other
    · rw [Multiset.count_singleton_self] at removed
      rw [Function.update_self]
      omega
    · rw [Multiset.count_singleton, if_neg other] at removed
      rw [Function.update_of_ne other]
      omega
  queued := by
    intro q v inside
    rcases eq_or_ne q p with rfl | other
    · simp only [Function.update_self] at inside
      exact invariant.queued q v (here ▸ List.mem_cons_of_mem _ inside)
    · simp only [Function.update_of_ne other] at inside
      exact invariant.queued q v inside
  own := invariant.own
  stolen := invariant.stolen
  scan := invariant.scan

/-- A ULT that is in no pool and not held gets another pool. -/
theorem setPool (invariant : Invariant s transit) {u : ℕ} (p : Fin num)
    (queued : ∀ q, ∀ v ∈ s.queue q, v ≠ u)
    (held : ∀ i v origin, s.phase i = .hold v origin none → v ≠ u) :
    Invariant { s with pool := Function.update s.pool u p } transit where
  total := invariant.total
  history := invariant.history
  queued := by
    intro q v here
    exact (Function.update_of_ne (queued q v here) _ _).trans (invariant.queued q v here)
  own := by
    intro i v origin here
    exact (Function.update_of_ne (held i v origin here) _ _).trans (invariant.own i v origin here)
  stolen := invariant.stolen
  scan := invariant.scan

theorem block {u : ℕ} (invariant : Invariant s {u}) :
    Invariant { s with blocked := u :: s.blocked } 0 where
  total := by
    have change := total_blocked s.queue s.phase s.blocked s.finished (u :: s.blocked)
    rw [← Multiset.cons_coe, ← Multiset.singleton_add, ← add_assoc] at change
    rw [add_zero]
    exact (add_right_cancel change).trans invariant.total
  history := invariant.history
  queued := invariant.queued
  own := invariant.own
  stolen := invariant.stolen
  scan := invariant.scan

theorem unblock (invariant : Invariant s 0) {u : ℕ} (here : u ∈ s.blocked) :
    Invariant { s with blocked := s.blocked.erase u } {u} where
  total := by
    have change := total_blocked s.queue s.phase s.blocked s.finished (s.blocked.erase u)
    have split : (s.blocked : Multiset ℕ) = {u} + (s.blocked.erase u : Multiset ℕ) := by
      rw [Multiset.singleton_add, Multiset.cons_coe]
      exact Multiset.coe_eq_coe.mpr (List.perm_cons_erase here)
    rw [split, ← add_assoc] at change
    have before := invariant.total
    rw [add_zero] at before
    exact (add_right_cancel change).trans before
  history := invariant.history
  queued := invariant.queued
  own := invariant.own
  stolen := invariant.stolen
  scan := invariant.scan

theorem finish {u : ℕ} (invariant : Invariant s {u}) :
    Invariant { s with finished := u :: s.finished } 0 where
  total := by
    have change := total_finished s.queue s.phase s.blocked s.finished (u :: s.finished)
    rw [← Multiset.cons_coe, ← Multiset.singleton_add, ← add_assoc] at change
    rw [add_zero]
    exact (add_right_cancel change).trans invariant.total
  history := invariant.history
  queued := invariant.queued
  own := invariant.own
  stolen := invariant.stolen
  scan := invariant.scan

theorem create (invariant : Invariant s 0) :
    Invariant { s with numCreated := s.numCreated + 1 } {s.numCreated} where
  total := by
    have before := invariant.total
    rw [add_zero] at before
    change s.ledger.total + {s.numCreated} = (List.range (s.numCreated + 1) : Multiset ℕ)
    rw [before, List.range_succ, ← Multiset.coe_add]
    rfl
  history := invariant.history
  queued := invariant.queued
  own := invariant.own
  stolen := invariant.stolen
  scan := invariant.scan

/-- The ULT that runs under a scheduler leaves it, which goes on to its check. -/
theorem leave (invariant : Invariant s 0) {i : Fin num} {u : ℕ} (here : s.phase i = .run u) :
    Invariant (s.setPhase i .check) {u} := by
  refine invariant.changePhase rfl ⟨rfl, rfl, rfl, rfl, rfl, rfl, rfl⟩ ?_ ?_ ?_ (fun _ _ => rfl) ?_
  · simp [here]
  · simp
  · simp
  · simp

end Invariant

/-! ## Pool lists -/

theorem length_poolList (i : Fin num) : (poolList i).length = num := by simp [poolList]

/-- An index within range is the index of a pool of the list. -/
theorem poolList_getElem? (i k : Fin num) : (poolList i)[k.val]? = some (schedPools i k) := by
  simp [poolList]

theorem poolList_eq_cons (i : Fin num) : poolList i = i :: (poolList i).tail := by
  have nonempty : 0 < num := Nat.zero_lt_of_lt i.isLt
  have first := poolList_getElem? i ⟨0, nonempty⟩
  rw [schedPools_zero] at first
  cases pools : poolList i with
  | nil => simp [pools] at first
  | cons p rest =>
      rw [pools, List.getElem?_cons_zero] at first
      rw [Option.some.inj first, List.tail_cons]

theorem nodup_poolList (i : Fin num) : (poolList i).Nodup :=
  (List.nodup_finRange num).map (schedPools_injective i)

theorem mem_poolList (i p : Fin num) : p ∈ poolList i := by
  obtain ⟨k, rfl⟩ := (schedPools_bijective i).2 p
  exact List.mem_map.mpr ⟨k, List.mem_finRange k, rfl⟩

theorem nodup_tail_poolList (i : Fin num) : (poolList i).tail.Nodup :=
  (nodup_poolList i).sublist (List.tail_sublist _)

/-- Behind the own pool the list holds the others. -/
theorem mem_tail_poolList (i p : Fin num) : p ∈ (poolList i).tail ↔ p ≠ i := by
  have nodup := nodup_poolList i
  have member := mem_poolList i p
  rw [poolList_eq_cons] at nodup member
  constructor
  · rintro inside rfl
    exact (List.nodup_cons.mp nodup).1 inside
  · exact fun different => (List.mem_cons.mp member).resolve_left different

/-- The pool probed next is the next one of the list. -/
theorem tail_take_succ {i : Fin num} {target : ℕ} (positive : 0 < target) {p : Fin num}
    (here : (poolList i)[target]? = some p) :
    (poolList i).tail.take target = (poolList i).tail.take (target - 1) ++ [p] := by
  obtain ⟨k, rfl⟩ : ∃ k, target = k + 1 := ⟨target - 1, by omega⟩
  rw [Nat.add_sub_cancel, List.take_add_one, List.getElem?_tail, here]
  rfl

/-! ## Runs -/

namespace Invariant

variable {s : State num}

/-- A popped ULT is held.  Its pool is the one it was popped from. -/
theorem take (invariant : Invariant s 0) {i p : Fin num} {u : ℕ} {rest : List ℕ}
    (here : s.queue p = u :: rest) (idle : (s.phase i).owned = 0) {pool : Option (Fin num)}
    (stolen : ∀ q, pool = some q → q = p) : Invariant (s.take i p u rest pool) 0 := by
  have first : u ∈ s.queue p := here ▸ List.mem_cons_self
  refine (invariant.pop here).changePhase rfl ⟨rfl, rfl, rfl, rfl, rfl, rfl, rfl⟩ ?_ ?_ ?_
    (fun _ _ => rfl) ?_
  · simp [idle]
  · intro v origin same
    obtain ⟨rfl, rfl, -⟩ := Phase.hold.inj same
    exact invariant.queued _ _ first
  · intro v origin q same
    obtain ⟨-, rfl, rfl⟩ := Phase.hold.inj same
    exact stolen q rfl
  · simp

/-- `ABT_self_schedule` runs a held ULT. -/
theorem schedule (invariant : Invariant s 0) {i : Fin num} {u : ℕ} {origin : Fin num}
    {pool : Option (Fin num)} (here : s.phase i = .hold u origin pool) :
    Invariant { s with
      phase := Function.update s.phase i (.run u)
      pool := Function.update s.pool u (s.associated u pool) } 0 := by
  have pooled : Invariant
      { s with
        phase := Function.update s.phase i (.run u) } 0 := by
    refine invariant.changePhase rfl ⟨rfl, rfl, rfl, rfl, rfl, rfl, rfl⟩ ?_ ?_ ?_
      (fun _ _ => rfl) ?_
    · simp [here]
    · simp
    · simp
    · simp
  have running : u ∈ State.ledger { s with phase := Function.update s.phase i (.run u) }
      (.running i) := mem_running (Function.update_self _ _ _)
  refine pooled.setPool (s.associated u pool) (fun q v inside => ?_) fun j v from_j held => ?_
  · exact pooled.ne_of_place (mem_queued inside) running (by simp)
  · exact pooled.ne_of_place (mem_held held) running (by simp)

theorem scanStep (invariant : Invariant s 0) {i : Fin num} {target : ℕ}
    (here : s.phase i = .scan target) : Invariant (schedStep s i) 0 := by
  obtain ⟨positive, -, probes⟩ := invariant.scan i target here
  have idle : (s.phase i).owned = 0 := by rw [here]; rfl
  rw [schedStep, here]
  dsimp only
  split
  next within =>
    have next := poolList_getElem? i ⟨target, within⟩
    rw [next]
    dsimp only
    have scanned := (tail_take_succ positive next).trans (congrArg (· ++ _) probes.symm)
    split
    next u rest nonempty =>
      refine (invariant.pop nonempty).changePhase rfl ⟨rfl, rfl, rfl, rfl, rfl, rfl, rfl⟩ ?_ ?_ ?_
        (fun j other => Function.update_of_ne other _ _) ?_
      · simp [idle]
      · simp
      · intro v origin q same
        obtain ⟨-, rfl, place⟩ := Phase.hold.inj same
        exact (Option.some.inj place).symm
      · simp
    next =>
      refine invariant.changePhase rfl ⟨rfl, rfl, rfl, rfl, rfl, rfl, rfl⟩ ?_ ?_ ?_
        (fun j other => Function.update_of_ne other _ _) ?_
      · simp [idle]
      · simp
      · simp
      · intro after same
        obtain rfl := Phase.scan.inj same
        refine ⟨Nat.succ_pos _, within, ?_⟩
        exact (Function.update_self _ _ _).trans scanned.symm
  next =>
    refine invariant.changePhase rfl ⟨rfl, rfl, rfl, rfl, rfl, rfl, rfl⟩ ?_ ?_ ?_
      (fun _ _ => rfl) ?_
    · simp [idle]
    · simp
    · simp
    · simp

theorem sched (invariant : Invariant s 0) (i : Fin num) : Invariant (schedStep s i) 0 := by
  cases here : s.phase i with
  | popOwn =>
      have nonempty : 0 < num := Nat.zero_lt_of_lt i.isLt
      have first := poolList_getElem? i ⟨0, nonempty⟩
      rw [schedPools_zero] at first
      have idle : (s.phase i).owned = 0 := by rw [here]; rfl
      simp only [schedStep, here, first]
      split
      next u rest waiting => exact invariant.take waiting idle (by simp)
      next =>
        refine invariant.changePhase rfl ⟨rfl, rfl, rfl, rfl, rfl, rfl, rfl⟩ ?_ ?_ ?_
          (fun j other => Function.update_of_ne other _ _) ?_
        · simp [idle]
        · simp
        · simp
        · intro target same
          obtain rfl := Phase.scan.inj same
          exact ⟨Nat.one_pos, nonempty, by simp⟩
  | scan target => exact invariant.scanStep here
  | hold u origin pool =>
      simp only [schedStep, here]
      exact invariant.schedule here
  | run u => simpa only [schedStep, here] using invariant
  | check =>
      have idle : (s.phase i).owned = 0 := by rw [here]; rfl
      simp only [schedStep, here]
      split <;> refine invariant.changePhase rfl ⟨rfl, rfl, rfl, rfl, rfl, rfl, rfl⟩ ?_ ?_ ?_
        (fun _ _ => rfl) ?_
      all_goals first
        | (split <;> simp [idle])
        | simp [idle]
  | stopped => simpa only [schedStep, here] using invariant

/-- **Every step keeps the invariant.** -/
theorem step (invariant : Invariant s 0) (event : Event num) :
    Invariant (WorkStealing.step s event) 0 := by
  cases event with
  | sched i => exact invariant.sched i
  | create p =>
      refine (invariant.create.setPool p (fun q v inside => ?_) fun i v origin held => ?_).push
      · exact (invariant.lt_numCreated (mem_queued inside)).ne
      · exact (invariant.lt_numCreated (mem_held held)).ne
  | associate i p =>
      rw [WorkStealing.step]
      split
      next u here =>
        refine invariant.setPool p (fun q v inside => ?_) fun j v origin held => ?_
        · exact invariant.ne_of_place (mem_queued inside) (mem_running here) (by simp)
        · exact invariant.ne_of_place (mem_held held) (mem_running here) (by simp)
      next => exact invariant
  | yield i =>
      rw [WorkStealing.step]
      split
      next u here => exact (invariant.leave here).push
      next => exact invariant
  | block i =>
      rw [WorkStealing.step]
      split
      next u here => exact (invariant.leave here).block
      next => exact invariant
  | finish i =>
      rw [WorkStealing.step]
      split
      next u here => exact (invariant.leave here).finish
      next => exact invariant
  | resume u =>
      rw [WorkStealing.step]
      split
      next here => exact (invariant.unblock here).push
      next => exact invariant
  | request i request =>
      exact
        { total := invariant.total
          history := invariant.history
          queued := invariant.queued
          own := invariant.own
          stolen := invariant.stolen
          scan := invariant.scan }

end Invariant

/-- A ULT is at a place. -/
def State.At (s : State num) (u : ℕ) : Place num → Prop
  | .queued p => u ∈ s.queue p
  | .held i => ∃ origin pool, s.phase i = .hold u origin pool
  | .running i => s.phase i = .run u
  | .blocked => u ∈ s.blocked
  | .finished => u ∈ s.finished

theorem at_iff {s : State num} {u : ℕ} {place : Place num} :
    s.At u place ↔ u ∈ s.ledger place := by
  cases place with
  | held i =>
      cases here : s.phase i <;>
        simp [State.At, State.ledger, ledgerOf, here, Phase.held, eq_comm]
  | running i =>
      cases here : s.phase i <;>
        simp [State.At, State.ledger, ledgerOf, here, Phase.running, eq_comm]
  | queued | blocked | finished => simp [State.At, State.ledger, ledgerOf]

/-- No work is lost or duplicated. -/
structure Safe (s : State num) : Prop where
  placed : ∀ u, u < s.numCreated → ∃! place, s.At u place
  queuedOnce : ∀ p, (s.queue p).Nodup
  takenOnce : ∀ u, s.takes u ≤ s.pushes u ∧ s.pushes u ≤ s.takes u + 1
  stolen : ∀ i u origin p, s.phase i = .hold u origin (some p) →
    (schedStep s i).phase i = .run u ∧ (schedStep s i).pool u = origin
  inRange : ∀ i target, s.phase i = .scan target → target < num →
    ∃ p, (poolList i)[target]? = some p ∧ p ≠ i ∧ p ∉ s.probed i
  probedOnce : ∀ i target, s.phase i = .scan target → num ≤ target →
    (s.probed i).Nodup ∧ ∀ p, p ∈ s.probed i ↔ p ≠ i

namespace Invariant

variable {s : State num}

theorem ledger_nodup (invariant : Invariant s 0) : s.ledger.total.Nodup :=
  (Multiset.nodup_add.mp invariant.nodup).1

theorem placed (invariant : Invariant s 0) {u : ℕ} (created : u < s.numCreated) :
    ∃! place, s.At u place := by
  have member : u ∈ s.ledger.total := by
    have total := invariant.total
    rw [add_zero] at total
    rw [total]
    exact Multiset.mem_coe.mpr (List.mem_range.mpr created)
  simpa only [at_iff] using Ledger.existsUnique_place invariant.ledger_nodup member

/-- A ULT is in pools at most once. -/
theorem count_queued_le (invariant : Invariant s 0) (u : ℕ) : s.queued.count u ≤ 1 := by
  refine Multiset.nodup_iff_count_le_one.mp ?_ u
  have inPools : s.queued ≤ s.ledger.total := by
    have reindexed : s.queued =
        ∑ place ∈ Finset.univ.map ⟨Place.queued, fun _ _ => Place.queued.inj⟩,
        s.ledger place := by
      rw [Finset.sum_map]
      rfl
    rw [reindexed]
    exact Finset.sum_le_sum_of_subset (Finset.subset_univ _)
  exact Multiset.nodup_of_le inPools invariant.ledger_nodup

theorem inRange (invariant : Invariant s 0) {i : Fin num} {target : ℕ}
    (here : s.phase i = .scan target) (within : target < num) :
    ∃ p, (poolList i)[target]? = some p ∧ p ≠ i ∧ p ∉ s.probed i := by
  obtain ⟨positive, -, probes⟩ := invariant.scan i target here
  have next := poolList_getElem? i ⟨target, within⟩
  have extended := tail_take_succ positive next
  have nodup := (nodup_tail_poolList i).sublist (List.take_sublist target _)
  rw [extended] at nodup
  have inside : schedPools i ⟨target, within⟩ ∈ (poolList i).tail := by
    refine List.mem_of_mem_take (i := target) ?_
    rw [extended]
    exact List.mem_append_right _ (List.mem_singleton_self _)
  refine ⟨_, next, (mem_tail_poolList i _).mp inside, ?_⟩
  rw [probes]
  exact fun again => List.disjoint_of_nodup_append nodup again (List.mem_singleton_self _)

theorem probedOnce (invariant : Invariant s 0) {i : Fin num} {target : ℕ}
    (here : s.phase i = .scan target) (complete : num ≤ target) :
    (s.probed i).Nodup ∧ ∀ p, p ∈ s.probed i ↔ p ≠ i := by
  obtain ⟨-, -, probes⟩ := invariant.scan i target here
  have all : (poolList i).tail.take (target - 1) = (poolList i).tail :=
    List.take_of_length_le (by rw [List.length_tail, length_poolList]; omega)
  rw [probes, all]
  exact ⟨nodup_tail_poolList i, mem_tail_poolList i⟩

theorem safe (invariant : Invariant s 0) : Safe s where
  placed := fun _ created => invariant.placed created
  queuedOnce := fun p =>
    Multiset.coe_nodup.mp (Ledger.nodup_place invariant.ledger_nodup (.queued p))
  takenOnce := by
    intro u
    have history := invariant.history u
    have once := invariant.count_queued_le u
    omega
  stolen := by
    intro i u origin p here
    have place := invariant.stolen i u origin p here
    simp [schedStep, here, State.associated, place]
  inRange := fun _ _ here within => invariant.inRange here within
  probedOnce := fun _ _ here complete => invariant.probedOnce here complete

end Invariant

end ArgobotsReduction.Scheduling.WorkStealing
