import Mathlib.Algebra.BigOperators.Group.Finset.Basic
import ArgobotsReduction.Parallel.Machine

/-!
# Replacing the main scheduler

A ULT on a stream may ask for another main scheduler.  It is associated with the
first pool of the new scheduler and waits, until the running scheduler has stopped
and the thread of the main scheduler has replaced it.  When another request arrives
before that, the new scheduler of the earlier one is discarded and its caller is
resumed at once.

Pools count the schedulers that have them, and an automatic pool is freed with its
last scheduler.  All requests are made by ULTs that the stream runs, so each of
them is one event, and so is the end of the scheduler's run function with the
replacement after it.  Schedulers may be created at any time, and schedulers that
the stream has not been given may be freed.

A pool that `ABTI_sched_create` makes itself is created by an event of its own.
-/

set_option autoImplicit false

namespace ArgobotsReduction.Scheduling.MainSched

open Parallel

universe u

/-- `ABTI_pool` -/
structure Pool where
  automatic : Bool
  numScheds : ℕ
  freed : Bool

/-- `ABTI_sched_used` -/
inductive Used where
  | notUsed
  | main
  deriving DecidableEq

/-- `ABTI_sched`.  The request is `ABTI_SCHED_REQ_REPLACE`, and the thread is the one
of the stream's main scheduler. -/
structure Sched (ι : Type u) where
  pools : List ℕ
  automatic : Bool
  used : Used
  replaceSched : Option ℕ
  replaceWaiter : Option ι
  request : Bool
  ythread : Bool
  freed : Bool

/-- A stream, with the pools and the schedulers by their numbers, and with the pool and
the state of the ULTs.  `given` are the schedulers the stream has been given, latest
first, `frees` those it has freed, and `pushed` is the last push of an event. -/
structure State (ι : Type u) where
  pools : ℕ → Pool
  numPools : ℕ
  scheds : ℕ → Sched ι
  numScheds : ℕ
  mainSched : ℕ
  pool : ι → ℕ
  blocked : ι → Bool
  given : List ℕ
  frees : List ℕ
  threadFreed : Bool
  pushed : Option (ι × ℕ)

/-- `ABTI_pool_release`, and the end of a pool in `ABTI_sched_free`. -/
def Pool.release (pool : Pool) : Pool where
  automatic := pool.automatic
  numScheds := pool.numScheds - 1
  freed := pool.freed || (pool.automatic && pool.numScheds - 1 == 0)

/-- `ABTI_pool_retain` -/
def Pool.retain (pool : Pool) : Pool := { pool with numScheds := pool.numScheds + 1 }

/-- The same change of one pool after the other. -/
def changePools (change : Pool → Pool) (pools : ℕ → Pool) (list : List ℕ) : ℕ → Pool :=
  list.foldl (fun pools p => Function.update pools p (change (pools p))) pools

namespace State

variable {ι : Type u}

/-- The current main scheduler. -/
def main (s : State ι) : Sched ι := s.scheds s.mainSched

def setSched (s : State ι) (id : ℕ) (sched : Sched ι) : State ι :=
  { s with scheds := Function.update s.scheds id sched }

/-- `ABTI_sched_free` -/
def schedFree (s : State ι) (id : ℕ) : State ι :=
  { s with
    pools := changePools Pool.release s.pools (s.scheds id).pools
    scheds := Function.update s.scheds id { s.scheds id with freed := true, ythread := false }
    threadFreed := s.threadFreed || (s.scheds id).ythread }

/-- `ABTI_sched_discard_and_free` without `force_free` -/
def discardAndFree (s : State ι) (id : ℕ) : State ι :=
  let unused := s.setSched id { s.scheds id with used := .notUsed }
  if (s.scheds id).automatic then
    { unused.schedFree id with frees := id :: s.frees }
  else
    { unused.setSched id { unused.scheds id with ythread := false } with
      threadFreed := s.threadFreed || (s.scheds id).ythread }

variable [DecidableEq ι]

/-- `ABTI_ythread_resume_and_push` -/
def resumeAndPush (s : State ι) (waiter : ι) : State ι :=
  { s with
    blocked := Function.update s.blocked waiter false
    pushed := some (waiter, s.pool waiter) }

/-- The caller gets the first pool of the new scheduler, if its pool is one of the current
main scheduler. -/
def associate (s : State ι) (caller : ι) (pool : ℕ) : State ι :=
  if s.pool caller ∈ s.main.pools then
    { s with pool := Function.update s.pool caller pool }
  else s

/-- A scheduler that is to replace the current one is discarded, and its waiter is resumed. -/
def overwrite (s : State ι) : Option (State ι) :=
  match s.main.replaceSched with
  | none => some s
  | some old =>
      s.main.replaceWaiter.map fun waiter =>
        let discarded := s.discardAndFree old
        let cleared := discarded.setSched s.mainSched
          { discarded.main with replaceSched := none, replaceWaiter := none }
        cleared.resumeAndPush waiter

/-- The new scheduler waits for the end of the current one, and the caller is suspended
with `ABTI_ythread_suspend_replace_sched`. -/
def await (s : State ι) (caller : ι) (id : ℕ) : State ι :=
  { s.setSched s.mainSched
      { s.main with replaceSched := some id, replaceWaiter := some caller, request := true } with
    blocked := Function.update s.blocked caller true
    given := id :: s.given }

/-- `xstream_update_main_sched` on the caller's own stream.  The flag says whether the
caller could be associated with the first pool of the scheduler. -/
def updateMainSched (s : State ι) (caller : ι) (id : ℕ) (succeeds : Bool) : Option (State ι) :=
  match (s.scheds id).pools.head? with
  | none => none
  | some pool =>
      if succeeds then
        ((s.associate caller pool).overwrite).map fun t => t.await caller id
      else some s

/-- What `thread_main_sched_func` does after the scheduler's run function. -/
def mainSchedFunc (s : State ι) : Option (State ι) :=
  if s.main.request then
    match s.main.replaceSched, s.main.replaceWaiter with
    | some id, some waiter =>
        let taken := s.setSched id
          { s.scheds id with used := .main, ythread := s.main.ythread }
        let left := taken.setSched s.mainSched { taken.scheds s.mainSched with ythread := false }
        some ((({ left with mainSched := id }).discardAndFree s.mainSched).resumeAndPush waiter)
    | _, _ => none
  else some s

end State

/-- A scheduler that is created with the pools. -/
def Sched.new {ι : Type u} (pools : List ℕ) (automatic : Bool) : Sched ι where
  pools := pools
  automatic := automatic
  used := .notUsed
  replaceSched := none
  replaceWaiter := none
  request := false
  ythread := false
  freed := false

/-- What can happen. -/
inductive Event (ι : Type u) where
  | createPool (automatic : Bool)
  | createSched (pools : List ℕ) (automatic : Bool)
  | freeSched (id : ℕ)
  | request (caller : ι) (id : ℕ) (succeeds : Bool)
  | stop

namespace State

variable {ι : Type u}

/-- A scheduler that nobody has given to the stream. -/
def Unused (s : State ι) (id : ℕ) : Prop :=
  id < s.numScheds ∧ (s.scheds id).freed = false ∧ id ∉ s.given

/-- The pools exist. -/
def Live (s : State ι) (pools : List ℕ) : Prop :=
  ∀ p ∈ pools, p < s.numPools ∧ (s.pools p).freed = false

instance (s : State ι) (id : ℕ) : Decidable (s.Unused id) := inferInstanceAs (Decidable (_ ∧ _))

instance (s : State ι) (pools : List ℕ) : Decidable (s.Live pools) :=
  inferInstanceAs (Decidable (∀ p ∈ pools, _))

variable [DecidableEq ι]

/-- An event.  A request is made by a ULT of the running scheduler, with a scheduler that
the stream has not been given before. -/
def step (s : State ι) : Event ι → Option (State ι)
  | .createPool automatic =>
      some { s with
        pools := Function.update s.pools s.numPools ⟨automatic, 0, false⟩
        numPools := s.numPools + 1
        pushed := none }
  | .createSched pools automatic =>
      if s.Live pools then
        some { s with
          pools := changePools Pool.retain s.pools pools
          scheds := Function.update s.scheds s.numScheds (.new pools automatic)
          numScheds := s.numScheds + 1
          pushed := none }
      else none
  | .freeSched id =>
      if s.Unused id then some { s.schedFree id with pushed := none } else none
  | .request caller id succeeds =>
      if s.Unused id ∧ s.blocked caller = false ∧ s.pool caller ∈ s.main.pools then
        ({ s with pushed := none }).updateMainSched caller id succeeds
      else none
  | .stop => ({ s with pushed := none }).mainSchedFunc

end State

/-- How many schedulers have the pool. -/
def holders {ι : Type u} (scheds : ℕ → Sched ι) (numScheds p : ℕ) : ℕ :=
  ∑ id ∈ Finset.range numScheds, if (scheds id).freed then 0 else (scheds id).pools.count p

/-- The pools count the schedulers that have them, and a freed pool has none. -/
structure Accounts {ι : Type u} (pools : ℕ → Pool) (numPools : ℕ) (scheds : ℕ → Sched ι)
    (numScheds : ℕ) : Prop where
  counted : ∀ p, (pools p).numScheds = holders scheds numScheds p
  freed : ∀ p, (pools p).freed = true → (pools p).numScheds = 0
  inside : ∀ id < numScheds, (scheds id).freed = false → ∀ p ∈ (scheds id).pools, p < numPools

/-- A stream that runs its first main scheduler. -/
structure Starts {ι : Type u} (s : State ι) : Prop where
  accounts : Accounts s.pools s.numPools s.scheds s.numScheds
  given : s.given = [s.mainSched]
  created : s.mainSched < s.numScheds
  live : s.main.freed = false
  idle : ∀ id < s.numScheds, (s.scheds id).replaceSched = none ∧
    (s.scheds id).replaceWaiter = none ∧ (s.scheds id).request = false
  owner : ∀ id, (s.scheds id).ythread = true ↔ id = s.mainSched
  threadFreed : s.threadFreed = false
  blocked : ∀ u, s.blocked u = false
  frees : s.frees = []
  pushed : s.pushed = none

/-- The streams with their events. -/
def streams (ι : Type u) [DecidableEq ι] : Machine (State ι) (Event ι) where
  init := Starts
  step := State.step

end ArgobotsReduction.Scheduling.MainSched
