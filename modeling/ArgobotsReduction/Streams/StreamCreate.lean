import ArgobotsReduction.Containers.Objects
import ArgobotsReduction.Streams.StreamListRuns

/-!
# The creation of an execution stream

A stream is created in stages.  It takes a rank; its local memory pools take their buckets; it gets
its main scheduler and the root ULT; then its root pool, the ULT of the main scheduler, which is
pushed to the root pool, and the context that starts it.  Everything but the rank may fail for lack
of resources, and then the stages before are undone, the last one first.

The memory of a ULT is from `malloc` or from one of the local pools, depending on the size
of its stack, and it can be freed to a local pool only as long as that pool is there.  A free to a
pool that is gone has no result.  Which of the steps that may fail does so is given by their
number.
-/

set_option autoImplicit false

namespace ArgobotsReduction.Streams.StreamCreate

open Containers

/-- The fields of `ABTI_global` that say where the memory of a ULT is from, and whether stacks are
allocated lazily. -/
structure Config where
  threadStacksize : ℕ
  schedStacksize : ℕ
  lazyStackAlloc : Bool

/-- Where the memory of a ULT is from -/
inductive Backing where
  | malloc
  | memPoolDesc
  | memPoolStack
  deriving DecidableEq

/-- `ABTI_ythread` -/
structure Ythread where
  object : ℕ
  backing : Backing
  deriving DecidableEq

/-- `used` of an `ABTI_sched` -/
inductive Used where
  | notUsed
  | main
  | inPool
  deriving DecidableEq

/-- The fields of the `ABTI_xstream` that is created, as far as they are set.  A local pool is
there until it is destroyed. -/
structure Xstream (κ : Type) where
  memPoolStack : Option ℕ
  memPoolDesc : Option ℕ
  mainSched : Option κ
  rootYthread : Option Ythread
  rootPool : Option ℕ

/-- The list of streams, the objects, and what the schedulers and the pools have.  Every memory
block, local pool, ULT, pool and context is an object. -/
structure World (ι : Type) (κ : Type) where
  list : State ι
  steps : ℕ
  objects : Objects
  units : ℕ → List ℕ
  used : κ → Used
  pYthread : κ → Option Ythread

variable {ι κ : Type}

namespace World

/-- A step that creates an object or fails -/
def create (succeeds : ℕ → Bool) (w : World ι κ) : World ι κ × Option ℕ :=
  if succeeds w.steps then
    ({ w with steps := w.steps + 1, objects := w.objects.create }, some w.objects.next)
  else ({ w with steps := w.steps + 1 }, none)

def free (w : World ι κ) (object : ℕ) : World ι κ := { w with objects := w.objects.free object }

/-- `ABTI_pool_create_basic` -/
def createPool (succeeds : ℕ → Bool) (w : World ι κ) : World ι κ × Option ℕ :=
  match w.create succeeds with
  | (w, none) => (w, none)
  | (w, some pool) => ({ w with units := Function.update w.units pool [] }, some pool)

/-- `ABTI_pool_push` -/
def push (w : World ι κ) (pool unit : ℕ) : World ι κ :=
  { w with units := Function.update w.units pool (w.units pool ++ [unit]) }

variable [DecidableEq κ]

def setUsed (w : World ι κ) (sched : κ) (used : Used) : World ι κ :=
  { w with used := Function.update w.used sched used }

def setYthread (w : World ι κ) (sched : κ) (ythread : Option Ythread) : World ι κ :=
  { w with pYthread := Function.update w.pYthread sched ythread }

end World

/-! ## Local memory -/

/-- `ABTI_mem_init_local` -/
def memInitLocal (succeeds : ℕ → Bool) (w : World ι κ) (x : Xstream κ) :
    World ι κ × Option (Xstream κ) :=
  match w.create succeeds with
  | (w, none) => (w, none)
  | (w, some stack) =>
      match w.create succeeds with
      | (w, none) => (w.free stack, none)
      | (w, some desc) => (w, some { x with memPoolStack := some stack, memPoolDesc := some desc })

/-- `ABTI_mem_finalize_local` -/
def memFinalizeLocal (w : World ι κ) (x : Xstream κ) : Option (World ι κ × Xstream κ) := do
  let stack ← x.memPoolStack
  let desc ← x.memPoolDesc
  return ((w.free stack).free desc, { x with memPoolStack := none, memPoolDesc := none })

/-! ## ULTs -/

/-- Where `ythread_create` takes the memory from, for a stack that it allocates -/
def Config.backing (config : Config) (stacksize : ℕ) : Backing :=
  if stacksize = config.threadStacksize then
    if config.lazyStackAlloc then .memPoolDesc else .memPoolStack
  else if stacksize ≠ 0 then .malloc
  else .memPoolDesc

/-- The local pool is there, if one is needed. -/
def Xstream.Backs (x : Xstream κ) : Backing → Bool
  | .malloc => true
  | .memPoolDesc => x.memPoolDesc.isSome
  | .memPoolStack => x.memPoolStack.isSome

/-- `ythread_create`, up to the pool.  There is no result if the local pool is gone. -/
def ythreadCreate (config : Config) (succeeds : ℕ → Bool) (w : World ι κ) (x : Xstream κ)
    (stacksize : ℕ) : Option (World ι κ × Option Ythread) :=
  let backing := config.backing stacksize
  if x.Backs backing then
    match w.create succeeds with
    | (w, none) => some (w, none)
    | (w, some object) => some (w, some ⟨object, backing⟩)
  else none

/-- `ABTI_thread_free` and `ABTI_ythread_free_root` -/
def threadFree (w : World ι κ) (x : Xstream κ) (ythread : Ythread) : Option (World ι κ) :=
  if x.Backs ythread.backing then some (w.free ythread.object) else none

/-- `ABTI_ythread_create_root` -/
def ythreadCreateRoot (config : Config) (succeeds : ℕ → Bool) (w : World ι κ) (x : Xstream κ)
    (type : XstreamType) : Option (World ι κ × Option Ythread) :=
  match type with
  | .primary => ythreadCreate config succeeds w x config.schedStacksize
  | .secondary => ythreadCreate config succeeds w x 0

section Creation

variable [DecidableEq ι] [DecidableEq κ]

/-- `ABTI_ythread_create_main_sched`, which pushes the ULT to the root pool -/
def ythreadCreateMainSched (config : Config) (succeeds : ℕ → Bool) (w : World ι κ) (x : Xstream κ) :
    Option (World ι κ × Bool) := do
  let pool ← x.rootPool
  let sched ← x.mainSched
  match ← ythreadCreate config succeeds w x config.schedStacksize with
  | (w, none) => return (w, false)
  | (w, some ythread) =>
      return ((w.push pool ythread.object).setYthread sched (some ythread), true)

/-! ## The stages -/

/-- Free the ULT of the main scheduler. -/
def undoMainSched (w : World ι κ) (x : Xstream κ) : Option (World ι κ × Xstream κ) := do
  let sched ← x.mainSched
  let ythread ← w.pYthread sched
  let w ← threadFree w x ythread
  return (w.setYthread sched none, x)

/-- Free the root pool. -/
def undoRootPool (w : World ι κ) (x : Xstream κ) : Option (World ι κ × Xstream κ) := do
  let pool ← x.rootPool
  return (w.free pool, x)

/-- Free the root ULT. -/
def undoRootYthread (w : World ι κ) (x : Xstream κ) : Option (World ι κ × Xstream κ) := do
  let root ← x.rootYthread
  let w ← threadFree w x root
  return (w, x)

/-- Take the scheduler back, and destroy the local pools. -/
def undoLocal (sched : κ) (w : World ι κ) (x : Xstream κ) : Option (World ι κ × Xstream κ) :=
  memFinalizeLocal (w.setUsed sched .notUsed) x

/-- Return the rank. -/
def undoRank (p : ι) (w : World ι κ) (x : Xstream κ) : Option (World ι κ × Xstream κ) := do
  let list ← w.list.returnRank p
  return ({ w with list := list }, x)

/-- A branch of the clean-up -/
def ifReached (stage initStage : ℕ) (undo : World ι κ → Xstream κ → Option (World ι κ × Xstream κ))
    (w : World ι κ) (x : Xstream κ) : Option (World ι κ × Xstream κ) :=
  if stage ≤ initStage then undo w x else some (w, x)

/-- The clean-up of `xstream_create`, which undoes the stages up to the last one that succeeded. -/
def failed (p : ι) (sched : κ) (block initStage : ℕ) (w : World ι κ) (x : Xstream κ) :
    Option (World ι κ) := do
  let (w, x) ← ifReached 5 initStage undoMainSched w x
  let (w, x) ← ifReached 4 initStage undoRootPool w x
  let (w, x) ← ifReached 3 initStage undoRootYthread w x
  let (w, x) ← ifReached 2 initStage (undoLocal sched) w x
  let (w, _) ← ifReached 1 initStage (undoRank p) w x
  return { w with list := w.list.free p }.free block

/-- `xstream_create` for a stream `p`.  There is no result if an assertion fails or a pointer
that is not set is used. -/
def xstreamCreate (config : Config) (succeeds : ℕ → Bool) (w : World ι κ) (p : ι) (sched : κ)
    (type : XstreamType) (rank : ℤ) (start : Bool) : Option (World ι κ × Code) :=
  match w.create succeeds with
  | (w, none) => some (w, .resource)
  | (w, some block) => do
      let fails (code : Code) (initStage : ℕ) (w : World ι κ) (x : Xstream κ) :
          Option (World ι κ × Code) :=
        (failed p sched block initStage w x).map fun w => (w, code)
      let x : Xstream κ := ⟨none, none, none, none, none⟩
      let (list, isSet) ← (w.list.malloc p).setNewRank p rank
      let w := { w with list := list }
      if !isSet then fails .invXstreamRank 0 w x
      else
        let w := { w with list := w.list.setType p type }
        match memInitLocal succeeds w x with
        | (w, none) => fails .resource 1 w x
        | (w, some x) =>
            -- `xstream_init_main_sched`
            let w := w.setUsed sched .main
            let x := { x with mainSched := some sched }
            match ← ythreadCreateRoot config succeeds w x type with
            | (w, none) => fails .resource 2 w x
            | (w, some root) =>
                let x := { x with rootYthread := some root }
                match w.createPool succeeds with
                | (w, none) => fails .resource 3 w x
                | (w, some pool) =>
                    let x := { x with rootPool := some pool }
                    let (w, isCreated) ← ythreadCreateMainSched config succeeds w x
                    if !isCreated then fails .resource 4 w x
                    else if start then
                      if type = .primary then none
                      else
                        match w.create succeeds with
                        | (w, none) => fails .resource 5 w x
                        | (w, some _) => return (w, .success)
                    else return (w, .success)

end Creation

end ArgobotsReduction.Streams.StreamCreate
