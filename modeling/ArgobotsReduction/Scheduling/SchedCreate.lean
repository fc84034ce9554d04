import Mathlib.Data.List.Count
import Mathlib.Logic.Function.Basic
import ArgobotsReduction.Containers.Objects

/-!
# The creation of a scheduler

A scheduler is created for an array of pools, in which a NULL entry stands for a pool that the
creation makes itself.  `ABTI_sched_create_basic` makes the pools of the entries that are NULL,
and gives all of them to `sched_create`, which counts the scheduler in every pool and runs the
initialization of the scheduler.  `sched_create` also takes NULL entries, from
`ABT_sched_create`.

Any allocation, any creation of a pool and the initialization may fail, and then whoever made a
pool frees it, and whoever counted the scheduler in a pool takes it out again.  Which of the steps
that may fail does so is given by their number.  The pools are those of the caller and those made
here; an initialization may have pools of its own, which are not among them.
-/

set_option autoImplicit false

namespace ArgobotsReduction.Scheduling.SchedCreate

open Containers

/-- The pools with their `num_scheds`, the memory blocks, and the number of steps so far that might
have failed. -/
structure World where
  steps : ℕ
  memory : Objects
  pools : Objects
  numScheds : ℕ → ℤ

/-- The errors that are returned. -/
inductive Error where
  | mem
  | invSchedPredef
  /-- What a user's initialization returns. -/
  | init
  deriving DecidableEq

/-- `ABTI_sched` -/
structure Sched where
  block : ℕ
  poolList : ℕ
  pools : List ℕ
  automatic : Bool

/-- `ABTI_sched_config`, with the value for `ABT_sched_config_automatic` if it has one. -/
structure Config where
  automatic : Option ℤ

/-- `init` of an `ABT_sched_def`: the world after it, and whether it succeeds. -/
abbrev Init := World → Sched → World × Bool

/-- `ABT_sched_def`.  The `init` of a user may be missing. -/
structure Def where
  init : Option Init

section Steps

variable (succeeds : ℕ → Bool)

/-- `ABTU_malloc` -/
def World.malloc (w : World) : World × Option ℕ :=
  if succeeds w.steps then
    ({ w with steps := w.steps + 1, memory := w.memory.create }, some w.memory.next)
  else ({ w with steps := w.steps + 1 }, none)

/-- `ABTI_pool_create_basic` -/
def World.createPool (w : World) : World × Option ℕ :=
  if succeeds w.steps then
    ({ w with
        steps := w.steps + 1
        pools := w.pools.create
        numScheds := Function.update w.numScheds w.pools.next 0 }, some w.pools.next)
  else ({ w with steps := w.steps + 1 }, none)

end Steps

namespace World

/-- `ABTU_free` -/
def freeMemory (w : World) (block : ℕ) : World := { w with memory := w.memory.free block }

/-- `ABTI_pool_free` -/
def freePool (w : World) (pool : ℕ) : World := { w with pools := w.pools.free pool }

/-- Add to `num_scheds`. -/
def addScheds (w : World) (pool : ℕ) (change : ℤ) : World :=
  { w with numScheds := Function.update w.numScheds pool (w.numScheds pool + change) }

/-- `ABTI_pool_retain` -/
def retain (w : World) (pool : ℕ) : World := w.addScheds pool 1

/-- `ABTI_pool_release` -/
def release (w : World) (pool : ℕ) : World := w.addScheds pool (-1)

end World

/-- An entry of the array that is given, and the pool that is used for it. -/
abbrev Entry := Option ℕ × ℕ

/-- Free the pools of the NULL entries. -/
def freeCreated (w : World) : List Entry → World
  | [] => w
  | (none, pool) :: rest => freeCreated (w.freePool pool) rest
  | (some _, _) :: rest => freeCreated w rest

/-- Take the scheduler back: free the pools of the NULL entries, release the others. -/
def takeBack (w : World) : List Entry → World
  | [] => w
  | (none, pool) :: rest => takeBack (w.freePool pool) rest
  | (some _, pool) :: rest => takeBack (w.release pool) rest

/-- `ABTI_pool_retain` for all of them -/
def retainAll (w : World) : List Entry → World
  | [] => w
  | (_, pool) :: rest => retainAll (w.retain pool) rest

section Creation

variable (succeeds : ℕ → Bool)

/-- The loop that makes the pools of the NULL entries: the entries that are left, and those done.
When a pool cannot be made, those made before are freed. -/
def fillPools (w : World) : List (Option ℕ) → List Entry → World × Option (List Entry)
  | [], done => (w, some done)
  | some pool :: rest, done => fillPools w rest (done ++ [(some pool, pool)])
  | none :: rest, done =>
      match w.createPool succeeds with
      | (w, none) => (freeCreated w done, none)
      | (w, some pool) => fillPools w rest (done ++ [(none, pool)])

/-- The end of `sched_create`, when the pools are there: they are retained, and the scheduler is
initialized. -/
def startSched (definition : Def) (sched : Sched) (entries : List Entry) (w : World) :
    World × Except Error Sched :=
  let w := retainAll w entries
  match definition.init with
  | none => (w, .ok sched)
  | some init =>
      match init w sched with
      | (w, true) => (w, .ok sched)
      | (w, false) =>
          (((takeBack w entries).freeMemory sched.poolList).freeMemory sched.block, .error .init)

/-- `sched_create` -/
def schedCreate (definition : Def) (pools : List (Option ℕ)) (config : Option Config)
    (defAutomatic : Bool) (w : World) : World × Except Error Sched :=
  match w.malloc succeeds with
  | (w, none) => (w, .error .mem)
  | (w, some block) =>
      let automatic :=
        match config.bind Config.automatic with
        | some value => value ≠ 0
        | none => defAutomatic
      match w.malloc succeeds with
      | (w, none) => (w.freeMemory block, .error .mem)
      | (w, some poolList) =>
          match fillPools succeeds w pools [] with
          | (w, none) => ((w.freeMemory poolList).freeMemory block, .error .mem)
          | (w, some entries) =>
              startSched definition ⟨block, poolList, entries.map Prod.snd, automatic⟩ entries w

/-! ## Predefined schedulers -/

/-- `ABT_sched_predef`, which may have any other value. -/
inductive Predef where
  | default
  | basic
  | basicWait
  | prio
  | randws
  | unknown (value : ℤ)
  deriving DecidableEq

/-- `sched_init` of every predefined scheduler: the scheduler's data, and its array of pools -/
def schedInit : Init := fun w _ =>
  match w.malloc succeeds with
  | (w, none) => (w, false)
  | (w, some data) =>
      match w.malloc succeeds with
      | (w, none) => (w.freeMemory data, false)
      | (w, some _) => (w, true)

/-- The definition of a predefined scheduler -/
def Predef.definition : Predef → Option Def
  | .default | .basic => some ⟨some (schedInit succeeds)⟩
  | .basicWait => some ⟨some (schedInit succeeds)⟩
  | .prio => some ⟨some (schedInit succeeds)⟩
  | .randws => some ⟨some (schedInit succeeds)⟩
  | .unknown _ => none

/-- `ABTI_SCHED_NUM_PRIO` -/
def schedNumPrio : ℕ := 3

/-- The number of pools that are made when there is no array -/
def Predef.numPools : Predef → Option ℕ
  | .default | .basic => some 1
  | .basicWait => some 1
  | .prio => some schedNumPrio
  | .randws => some 1
  | .unknown _ => none

/-- `sched_create` for the definition, with all pools that were given or made.  When it fails, the
pools that were made are freed. -/
def createFor (predef : Predef) (entries : List Entry) (config : Option Config) (w : World) :
    World × Except Error Sched :=
  let created : World × Except Error Sched :=
    match predef.definition succeeds with
    | none => (w, .error .invSchedPredef)
    | some definition =>
        schedCreate succeeds definition (entries.map fun entry => some entry.2) config true w
  match created with
  | (w, .ok sched) => (w, .ok sched)
  | (w, .error error) => (freeCreated w entries, .error error)

/-- `ABTI_sched_create_basic` -/
def schedCreateBasic (predef : Predef) (pools : Option (List (Option ℕ)))
    (config : Option Config) (w : World) : World × Except Error Sched :=
  match pools with
  | some [] => createFor succeeds predef [] config w
  | some pools =>
      match w.malloc succeeds with
      | (w, none) => (w, .error .mem)
      | (w, some poolList) =>
          match fillPools succeeds w pools [] with
          | (w, none) => (w.freeMemory poolList, .error .mem)
          | (w, some entries) =>
              let created := createFor succeeds predef entries config w
              (created.1.freeMemory poolList, created.2)
  | none =>
      match predef.numPools with
      | none => (w, .error .invSchedPredef)
      | some numPools =>
          match fillPools succeeds w (List.replicate numPools none) [] with
          | (w, none) => (w, .error .mem)
          | (w, some entries) => createFor succeeds predef entries config w

end Creation

end ArgobotsReduction.Scheduling.SchedCreate
