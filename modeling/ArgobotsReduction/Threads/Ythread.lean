import Mathlib.Data.Fintype.Basic
import Mathlib.Data.Int.Notation
import Mathlib.Logic.Function.Basic

/-!
# Yieldable threads and the pools they block on

A ULT that blocks increments `num_blocked` of its pool, and whoever resumes it
pushes it to its pool and decrements that counter, so that a scheduler knows that
a pool without units still expects some (`ABTI_sched_has_unit`).

A ULT blocks in a callback that runs after it has left its stack.  The callback
increments the counter, then handles the requests of the ULT, which may move it
to another pool, and then marks it as blocked.  Here the first part is one step
(`suspend`, `resumeSuspendTo`) and the rest another (`finishSuspend`); every other
operation is one step.  A ULT that ends waits for a joiner that has announced
itself and is not yet blocked; as long as it waits its step does nothing.
-/

set_option autoImplicit false

namespace ArgobotsReduction.Threads

universe u v

/-- `ABT_thread_state` -/
inductive ThreadState where
  | ready
  | running
  | blocked
  | terminated
deriving DecidableEq

/-- The callbacks that block their ULT. -/
inductive Suspension (Ult : Type u) where
  | suspend
  | suspendUnlock
  | suspendJoin (target : Ult)
  | suspendReplaceSched
  | resumeSuspendTo
deriving DecidableEq

/-- What is read here of an `ABTI_ythread`: the fields of its thread, the flags of
its request, the link to its joiner, and the callback that has incremented
`num_blocked` for it and has not ended yet. -/
structure Ythread (Ult : Type u) (Pool : Type v) where
  pool : Pool
  state : ThreadState
  lastXstream : Option ℕ
  mainSched : Bool
  reqJoin : Bool
  reqCancel : Bool
  reqMigrate : Bool
  migrationPool : Pool
  link : Option Ult
  callback : Option (Suspension Ult)

/-- The ULTs and the pools. -/
structure State (Ult : Type u) (Pool : Type v) where
  ult : Ult → Ythread Ult Pool
  units : Pool → List Ult
  numBlocked : Pool → ℤ

variable {Ult : Type u} {Pool : Type v}

namespace State

section Ults

variable [DecidableEq Ult]

def modify (s : State Ult Pool) (u : Ult) (f : Ythread Ult Pool → Ythread Ult Pool) :
    State Ult Pool :=
  { s with ult := Function.update s.ult u (f (s.ult u)) }

variable {s : State Ult Pool} {u : Ult} {f : Ythread Ult Pool → Ythread Ult Pool}

@[simp]
theorem modify_self : (s.modify u f).ult u = f (s.ult u) := Function.update_self _ _ _

theorem modify_of_ne {t : Ult} (different : t ≠ u) : (s.modify u f).ult t = s.ult t :=
  Function.update_of_ne different _ _

/-- Changes of two ULTs can be made in any order. -/
theorem modify_comm {t : Ult} {g : Ythread Ult Pool → Ythread Ult Pool} (different : u ≠ t) :
    (s.modify t g).modify u f = (s.modify u f).modify t g := by
  simp only [modify, Function.update_of_ne different, Function.update_of_ne different.symm,
    Function.update_comm different]

@[simp]
theorem modify_units : (s.modify u f).units = s.units := rfl

/-- `ABTI_thread_terminate` -/
def terminate (s : State Ult Pool) (u : Ult) : State Ult Pool :=
  s.modify u fun y => { y with state := .terminated }

def setRunning (s : State Ult Pool) (u : Ult) (xstream : Option ℕ) : State Ult Pool :=
  s.modify u fun y => { y with state := .running, lastXstream := xstream }

/-- `ABTI_thread_handle_request_migrate`, when it succeeds. -/
def migrate (s : State Ult Pool) (u : Ult) : State Ult Pool :=
  s.modify u fun y => { y with pool := y.migrationPool, reqMigrate := false }

end Ults

section Counters

variable [DecidableEq Pool]

/-- `ABTI_pool_inc_num_blocked` -/
def incNumBlocked (s : State Ult Pool) (pool : Pool) : State Ult Pool :=
  { s with numBlocked := Function.update s.numBlocked pool (s.numBlocked pool + 1) }

/-- `ABTI_pool_dec_num_blocked` -/
def decNumBlocked (s : State Ult Pool) (pool : Pool) : State Ult Pool :=
  { s with numBlocked := Function.update s.numBlocked pool (s.numBlocked pool - 1) }

/-- `ABTI_pool_push` -/
def push (s : State Ult Pool) (pool : Pool) (u : Ult) : State Ult Pool :=
  { s with units := Function.update s.units pool (s.units pool ++ [u]) }

variable {s : State Ult Pool} {pool : Pool} {u : Ult}

@[simp]
theorem incNumBlocked_ult : (s.incNumBlocked pool).ult = s.ult := rfl

@[simp]
theorem incNumBlocked_units : (s.incNumBlocked pool).units = s.units := rfl

@[simp]
theorem decNumBlocked_ult : (s.decNumBlocked pool).ult = s.ult := rfl

@[simp]
theorem decNumBlocked_units : (s.decNumBlocked pool).units = s.units := rfl

@[simp]
theorem push_ult : (s.push pool u).ult = s.ult := rfl

theorem push_units_self : (s.push pool u).units pool = s.units pool ++ [u] :=
  Function.update_self _ _ _

theorem push_units_of_ne {other : Pool} (different : other ≠ pool) :
    (s.push pool u).units other = s.units other :=
  Function.update_of_ne different _ _

end Counters

variable [DecidableEq Ult] [DecidableEq Pool]

/-- The unit leaves the pool: it is popped, or removed. -/
def remove (s : State Ult Pool) (pool : Pool) (u : Ult) : State Ult Pool :=
  { s with units := Function.update s.units pool ((s.units pool).erase u) }

section Remove

variable {s : State Ult Pool} {pool : Pool} {u : Ult}

@[simp]
theorem remove_ult : (s.remove pool u).ult = s.ult := rfl

theorem remove_units_self : (s.remove pool u).units pool = (s.units pool).erase u :=
  Function.update_self _ _ _

theorem remove_units_of_ne {other : Pool} (different : other ≠ pool) :
    (s.remove pool u).units other = s.units other :=
  Function.update_of_ne different _ _

end Remove

/-- `ABTI_pool_add_thread` -/
def addThread (s : State Ult Pool) (u : Ult) : State Ult Pool :=
  (s.modify u fun y => { y with state := .ready }).push (s.ult u).pool u

theorem addThread_of_ne {s : State Ult Pool} {u t : Ult} (different : t ≠ u) :
    (s.addThread u).ult t = s.ult t := by
  rw [addThread, push_ult, modify_of_ne different]

theorem mem_units_addThread {s : State Ult Pool} {u t : Ult} {pool : Pool}
    (member : t ∈ (s.addThread u).units pool) : t ∈ s.units pool ∨ t = u := by
  rcases eq_or_ne pool (s.ult u).pool with rfl | different
  · rw [addThread, push_units_self, List.mem_append, List.mem_singleton] at member
    exact member
  · rw [addThread, push_units_of_ne different] at member
    exact Or.inl member

/-- `ABTI_ythread_resume_and_push` -/
def resumeAndPush (s : State Ult Pool) (u : Ult) : State Ult Pool :=
  (s.addThread u).decNumBlocked (s.ult u).pool

/-- `ABTI_ythread_resume_joiner`; nothing if the joiner has not set its link yet. -/
def resumeJoiner (s : State Ult Pool) (u : Ult) : Option (State Ult Pool) :=
  match (s.ult u).link with
  | some joiner => some (s.resumeAndPush joiner)
  | none =>
      if (s.ult u).reqJoin then none
      else some (s.modify u fun y => { y with reqJoin := true })

end State

variable [DecidableEq Ult] [DecidableEq Pool]

/-- The results of `ABTI_thread_handle_request`. -/
inductive Handled where
  | none
  | cancelled
  | migrated
deriving DecidableEq

/-- `ABTI_thread_handle_request`; `migrates` says whether a migration succeeds. -/
def handleRequest (allowTermination migrates : Bool) (s : State Ult Pool) (u : Ult) :
    Option (State Ult Pool × Handled) :=
  if allowTermination && (s.ult u).reqCancel then
    (s.resumeJoiner u).map fun resumed => (resumed.terminate u, .cancelled)
  else if (s.ult u).reqMigrate && migrates then some (s.migrate u, .migrated)
  else some (s, .none)

/-- What the yielding callbacks do: handle the requests, and push the ULT back
unless it is terminated. -/
def callbackYield (migrates : Bool) (s : State Ult Pool) (u : Ult) : Option (State Ult Pool) :=
  (handleRequest true migrates s u).map fun handled =>
    if handled.2 = .cancelled then handled.1 else handled.1.addThread u

/-- A ULT that is blocked in a join links itself to its target. -/
def linkJoiner (s : State Ult Pool) (u : Ult) : Suspension Ult → State Ult Pool
  | .suspendJoin target => s.modify target fun y => { y with link := some u }
  | _ => s

/-- The end of a blocking callback. -/
def callbackBlock (migrates : Bool) (s : State Ult Pool) (u : Ult) (callback : Suspension Ult) :
    State Ult Pool :=
  let handled := ((handleRequest false migrates s u).map Prod.fst).getD s
  linkJoiner (handled.modify u fun y => { y with state := .blocked, callback := none }) u callback

/-! ## Events -/

/-- The operations on ULTs. -/
inductive Event (Ult : Type u) (Pool : Type v) where
  | create (u : Ult) (pool : Pool) (mainSched : Bool)
  | requestMigration (u : Ult) (pool : Pool)
  | requestCancel (u : Ult)
  | schedule (u : Ult) (pool : Pool) (xstream : ℕ) (migrates : Bool)
  | yield (u : Ult) (migrates : Bool)
  | threadYieldTo (u target : Ult) (removed migrates : Bool)
  | suspend (u : Ult) (callback : Suspension Ult)
  | finishSuspend (u : Ult) (migrates : Bool)
  | resume (u : Ult)
  | resumeYieldTo (u target : Ult) (migrates : Bool)
  | resumeSuspendTo (u target : Ult)
  | resumeExitTo (u target : Ult)
  | exit (u : Ult)

/-- The ULT runs, and is not in a callback. -/
def Runs (s : State Ult Pool) (u : Ult) : Prop :=
  (s.ult u).state = .running ∧ (s.ult u).callback = none

instance (s : State Ult Pool) (u : Ult) : Decidable (Runs s u) :=
  inferInstanceAs (Decidable (_ ∧ _))

/-- The ULT is blocked, and not in a join. -/
def Resumable (s : State Ult Pool) (u : Ult) : Prop :=
  (s.ult u).state = .blocked ∧ ∀ target, (s.ult target).state ≠ .terminated →
    (s.ult target).link ≠ some u

instance [Fintype Ult] (s : State Ult Pool) (u : Ult) : Decidable (Resumable s u) :=
  inferInstanceAs (Decidable (_ ∧ _))

/-- A ULT can block in a callback: it waits for another one that nobody joins yet. -/
def CanSuspend (s : State Ult Pool) (u : Ult) : Suspension Ult → Prop
  | .suspendJoin target => target ≠ u ∧ (s.ult target).reqJoin = false
  | .resumeSuspendTo => False
  | _ => True

instance (s : State Ult Pool) (u : Ult) (callback : Suspension Ult) :
    Decidable (CanSuspend s u callback) := by
  cases callback <;> unfold CanSuspend <;> infer_instance

/-- A ULT that blocks in a join first tells its target. -/
def announceJoin (s : State Ult Pool) : Suspension Ult → State Ult Pool
  | .suspendJoin target => s.modify target fun y => { y with reqJoin := true }
  | _ => s

variable [Fintype Ult]

/-- One operation.  It does nothing if its caller is not running, its target is not
in the state it requires, or it has to wait. -/
def step (s : State Ult Pool) : Event Ult Pool → State Ult Pool
  | .create u pool mainSched =>
      if (s.ult u).state = .terminated then
        (s.modify u fun _ =>
          { pool := pool, state := .ready, lastXstream := none, mainSched := mainSched,
            reqJoin := false, reqCancel := false, reqMigrate := false, migrationPool := pool,
            link := none, callback := none }).push pool u
      else s
  | .requestMigration u pool =>
      if (s.ult u).mainSched = false ∧ (s.ult u).pool ≠ pool then
        s.modify u fun y => { y with migrationPool := pool, reqMigrate := true }
      else s
  | .requestCancel u => s.modify u fun y => { y with reqCancel := true }
  | .schedule u pool xstream migrates =>
      if u ∈ s.units pool then
        match handleRequest true migrates (s.remove pool u) u with
        | none => s
        | some (handled, .none) => handled.setRunning u (some xstream)
        | some (handled, .cancelled) => handled
        | some (handled, .migrated) => handled.addThread u
      else s
  | .yield u migrates =>
      if Runs s u then (callbackYield migrates s u).getD s else s
  | .threadYieldTo u target removed migrates =>
      if Runs s u ∧ (s.ult u).mainSched = false ∧ target ≠ u ∧
          target ∈ s.units (s.ult target).pool then
        let counted := s.incNumBlocked (s.ult u).pool
        if removed then
          let switched := (counted.remove (s.ult target).pool target).setRunning target
            (s.ult u).lastXstream
          -- the pool is read before the requests are handled
          ((callbackYield migrates switched u).map (·.decNumBlocked (s.ult u).pool)).getD s
        else counted.decNumBlocked (s.ult u).pool
      else s
  | .suspend u callback =>
      if Runs s u ∧ CanSuspend s u callback then
        ((announceJoin s callback).incNumBlocked (s.ult u).pool).modify u fun y =>
          { y with callback := some callback }
      else s
  | .finishSuspend u migrates =>
      match (s.ult u).callback with
      | none => s
      | some callback => callbackBlock migrates s u callback
  | .resume u => if Resumable s u then s.resumeAndPush u else s
  | .resumeYieldTo u target migrates =>
      if Runs s u ∧ (s.ult u).mainSched = false ∧ Resumable s target then
        let switched := s.setRunning target (s.ult u).lastXstream
        ((callbackYield migrates switched u).map fun after =>
          after.decNumBlocked (after.ult target).pool).getD s
      else s
  | .resumeSuspendTo u target =>
      if Runs s u ∧ (s.ult u).mainSched = false ∧ Resumable s target then
        let switched := s.setRunning target (s.ult u).lastXstream
        let counted :=
          if (s.ult u).pool ≠ (s.ult target).pool then
            (switched.incNumBlocked (s.ult u).pool).decNumBlocked (s.ult target).pool
          else switched
        counted.modify u fun y => { y with callback := some .resumeSuspendTo }
      else s
  | .resumeExitTo u target =>
      if Runs s u ∧ (s.ult u).mainSched = false ∧ Resumable s target then
        ((s.resumeJoiner u).map fun resumed =>
          let after := (resumed.setRunning target (s.ult u).lastXstream).terminate u
          after.decNumBlocked (after.ult target).pool).getD s
      else s
  | .exit u =>
      if Runs s u then
        match (s.ult u).link with
        | some joiner =>
            if (s.ult u).lastXstream = (s.ult joiner).lastXstream ∧
                (s.ult u).mainSched = false then
              ((s.decNumBlocked (s.ult joiner).pool).setRunning joiner
                (s.ult u).lastXstream).terminate u
            else (s.resumeAndPush joiner).terminate u
        | none =>
            if (s.ult u).reqJoin then s
            else (s.modify u fun y => { y with reqJoin := true }).terminate u
      else s

/-- All ULTs are free, and the pools are empty. -/
def init (memory : Ult → Ythread Ult Pool) : State Ult Pool where
  ult := fun u => { memory u with state := .terminated, callback := none }
  units := fun _ => []
  numBlocked := fun _ => 0

def run (memory : Ult → Ythread Ult Pool) (events : List (Event Ult Pool)) : State Ult Pool :=
  events.foldl step (init memory)

theorem run_append_singleton (memory : Ult → Ythread Ult Pool) (events : List (Event Ult Pool))
    (event : Event Ult Pool) :
    run memory (events ++ [event]) = step (run memory events) event := by
  simp [run]

/-! ## Schedulers -/

/-- `ABT_pool_access` -/
inductive Access where
  | priv
  | spsc
  | mpsc
  | spmc
  | mpmc
deriving DecidableEq

/-- A scheduler with its pools, their kinds, and the numbers of their schedulers. -/
structure Sched (Pool : Type v) where
  pools : List Pool
  access : Pool → Access
  numScheds : Pool → ℤ

/-- The scheduler asks for the blocked ULTs of a pool: it is private, or has no
other scheduler. -/
def Sched.countsBlocked (sched : Sched Pool) (pool : Pool) : Bool :=
  match sched.access pool with
  | .priv => true
  | _ => sched.numScheds pool = 1

/-- `ABTI_sched_has_unit` -/
def schedHasUnit (s : State Ult Pool) (sched : Sched Pool) : Bool :=
  sched.pools.any fun pool =>
    !(s.units pool).isEmpty || (sched.countsBlocked pool && s.numBlocked pool != 0)

end ArgobotsReduction.Threads
