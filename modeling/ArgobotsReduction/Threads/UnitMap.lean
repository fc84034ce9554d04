import Mathlib.Data.BitVec
import ArgobotsReduction.Containers.AllocatedSlots
import ArgobotsReduction.Parallel.Machine

/-!
# Units and their threads

A pool holds units.  The unit of a thread in a built-in pool is the address of the
thread with the lowest bit set.  A user-defined pool creates its own units, and the
threads of those are found in a hash table.  So every change of the pool of a thread
may have to create a unit and map it to the thread, and to unmap the old unit and free
it.

What a user-defined pool returns for a new unit and whether memory can be allocated are
parameters of the operations.  The hash is a parameter, too, and `unitGetHashIndex` is
the one of the code.
-/

set_option autoImplicit false

namespace ArgobotsReduction.Threads.UnitMap

open Containers Parallel

universe u v

/-! ## The code -/

/-- `uintptr_t`, of which `ABT_unit` and `ABTI_thread *` are addresses -/
abbrev Address := BitVec 64

/-- `ABTI_UNIT_BUILTIN_POOL_BIT` -/
def builtinPoolBit : Address := 1#64

/-- `ABT_UNIT_NULL`, and the null pointer -/
def unitNull : Address := 0#64

/-- `ABTI_unit_is_builtin` -/
def isBuiltin (unit : Address) : Bool := unit &&& builtinPoolBit != 0#64

/-- `ABTI_unit_get_builtin_unit`, without its assertion -/
def getBuiltinUnit (thread : Address) : Address := thread ||| builtinPoolBit

/-- `ABTI_unit_get_thread_from_builtin_unit`, without its assertion -/
def getThreadFromBuiltinUnit (unit : Address) : Address := unit &&& ~~~builtinPoolBit

/-- The return values. -/
inductive Code where
  | success
  | other
  | mem
  deriving DecidableEq

/-- The fields of `ABTI_thread` that a change of the pool writes. -/
structure Thread (Pool : Type u) where
  prev : Address
  next : Address
  isInPool : Bool
  unit : Address
  pool : Option Pool

/-- Who has created a unit that is alive. -/
inductive Owner where
  | pool
  | caller
  deriving DecidableEq

/-- The hash table, and the threads.  `live` has the user-defined units that have been created and
not freed, and `mapped` the threads that units have been mapped to. -/
structure State (Pool : Type u) (Bucket : Type v) where
  entries : Bucket → List (Address × Address)
  thread : Address → Thread Pool
  live : Address → Option Owner
  mapped : Address → Option Address

/-- What a user-defined pool returns for a new unit, and whether memory can be allocated. -/
structure Outside where
  unit : Address
  allocates : Bool

namespace State

variable {Pool : Type u} {Bucket : Type v} [DecidableEq Bucket]

/-- `p_create_unit` has returned a unit. -/
def createUnit (s : State Pool Bucket) (unit : Address) (owner : Owner) : State Pool Bucket :=
  { s with live := Function.update s.live unit (some owner) }

/-- `p_free_unit` -/
def freeUnit (s : State Pool Bucket) (unit : Address) : State Pool Bucket :=
  { s with live := Function.update s.live unit none }

/-- Write the thread. -/
def setThread (s : State Pool Bucket) (p : Address) (thread : Thread Pool) : State Pool Bucket :=
  { s with thread := Function.update s.thread p thread }

def setPool (s : State Pool Bucket) (p : Address) (pool : Pool) : State Pool Bucket :=
  s.setThread p { s.thread p with pool := some pool }

def setUnit (s : State Pool Bucket) (p : Address) (unit : Address) : State Pool Bucket :=
  s.setThread p { s.thread p with unit := unit }

/-- `ABTI_unit_init_builtin`.  A failed assertion gives none. -/
def initBuiltin (s : State Pool Bucket) (p : Address) : Option (State Pool Bucket) :=
  if isBuiltin p then none
  else some (s.setThread p { s.thread p with
    prev := unitNull
    next := unitNull
    isInPool := false
    unit := getBuiltinUnit p })

variable (hash : Address → Bucket)

/-- The slots of the bucket of a unit. -/
def setEntry (s : State Pool Bucket) (unit : Address) (slots : List (Address × Address)) :
    State Pool Bucket :=
  { s with entries := Function.update s.entries (hash unit) slots }

def setMapped (s : State Pool Bucket) (unit : Address) (thread : Option Address) :
    State Pool Bucket :=
  { s with mapped := Function.update s.mapped unit thread }

/-- `unit_map_thread` -/
def unitMapThread (s : State Pool Bucket) (unit p : Address) (allocates : Bool) :
    Option (State Pool Bucket × Code) :=
  if isBuiltin unit then none
  else
    match Slots.reuse unitNull unit p (s.entries (hash unit)) with
    | some slots => some ((s.setEntry hash unit slots).setMapped unit (some p), .success)
    | none =>
        if allocates then
          some ((s.setEntry hash unit ((unit, p) :: s.entries (hash unit))).setMapped unit (some p),
            .success)
        else some (s, .mem)

/-- `unit_unmap_thread` -/
def unitUnmapThread (s : State Pool Bucket) (unit : Address) : Option (State Pool Bucket) :=
  if isBuiltin unit then none
  else (Slots.clear unitNull unit (s.entries (hash unit))).map fun slots =>
    (s.setEntry hash unit slots).setMapped unit none

/-- `unit_get_thread_from_user_defined_unit` -/
def unitGetThreadFromUserDefinedUnit (s : State Pool Bucket) (unit : Address) : Option Address :=
  if isBuiltin unit then none else Slots.find unit (s.entries (hash unit))

/-- `ABTI_unit_get_thread` -/
def unitGetThread (s : State Pool Bucket) (unit : Address) : Option Address :=
  if isBuiltin unit then some (getThreadFromBuiltinUnit unit)
  else s.unitGetThreadFromUserDefinedUnit hash unit

/-- The block that creates a unit and maps it to a thread.  It is the same wherever a thread goes to
another user-defined pool. -/
def newUnit (s : State Pool Bucket) (owner : Owner) (p : Address) (outside : Outside) :
    Option (State Pool Bucket × Code) :=
  if outside.unit = unitNull then some (s, .other)
  else
    ((s.createUnit outside.unit owner).unitMapThread hash outside.unit p outside.allocates).map
      fun (t, ret) => if ret = .success then (t, .success) else (t.freeUnit outside.unit, ret)

/-- The block that unmaps the old unit of a thread and frees it. -/
def oldUnit (s : State Pool Bucket) (unit : Address) : Option (State Pool Bucket) :=
  (s.unitUnmapThread hash unit).map fun s => s.freeUnit unit

variable [DecidableEq Pool] (builtin : Pool → Bool)

/-- `ABTI_thread_init_pool` -/
def threadInitPool (s : State Pool Bucket) (p : Address) (pool : Pool) (outside : Outside) :
    Option (State Pool Bucket × Code) :=
  if builtin pool then (s.initBuiltin p).map fun s => (s.setPool p pool, .success)
  else
    (s.newUnit hash .pool p outside).map fun (s, ret) =>
      if ret = .success then ((s.setUnit p outside.unit).setPool p pool, .success) else (s, ret)

/-- `ABTI_thread_set_associated_pool` -/
def threadSetAssociatedPool (s : State Pool Bucket) (p : Address) (pool : Pool)
    (outside : Outside) : Option (State Pool Bucket × Code) :=
  let unit := (s.thread p).unit
  if isBuiltin unit ∧ builtin pool then some (s.setPool p pool, .success)
  else if isBuiltin unit then
    (s.newUnit hash .pool p outside).map fun (s, ret) =>
      if ret = .success then ((s.setUnit p outside.unit).setPool p pool, .success) else (s, ret)
  else if builtin pool then
    ((s.oldUnit hash unit).bind fun s => s.initBuiltin p).map fun s => (s.setPool p pool, .success)
  else if (s.thread p).pool = some pool then some (s, .success)
  else
    (s.newUnit hash .pool p outside).bind fun (s, ret) =>
      if ret = .success then
        (s.oldUnit hash unit).map fun s => ((s.setUnit p outside.unit).setPool p pool, .success)
      else some (s, ret)

/-- `ABTI_unit_set_associated_pool`, with the thread that it stores -/
def unitSetAssociatedPool (s : State Pool Bucket) (unit : Address) (pool : Pool)
    (outside : Outside) : Option (State Pool Bucket × Except Code Address) :=
  if isBuiltin unit then
    let p := getThreadFromBuiltinUnit unit
    if builtin pool then some (s.setPool p pool, .ok p)
    else
      (s.newUnit hash .pool p outside).map fun (s, ret) =>
        if ret = .success then ((s.setUnit p outside.unit).setPool p pool, .ok p)
        else (s, .error ret)
  else
    (s.unitGetThreadFromUserDefinedUnit hash unit).bind fun p =>
      if builtin pool then
        ((s.oldUnit hash unit).bind fun s => s.initBuiltin p).map fun s => (s.setPool p pool, .ok p)
      else if (s.thread p).pool = some pool then some (s, .ok p)
      else
        (s.newUnit hash .pool p outside).bind fun (s, ret) =>
          if ret = .success then
            (s.oldUnit hash unit).map fun s => ((s.setUnit p outside.unit).setPool p pool, .ok p)
          else some (s, .error ret)

/-- `ABTI_thread_unset_associated_pool`, with the error checks -/
def threadUnsetAssociatedPool (s : State Pool Bucket) (p : Address) : Option (State Pool Bucket) :=
  let unit := (s.thread p).unit
  (if isBuiltin unit then some s else s.oldUnit hash unit).map fun s =>
    s.setThread p { s.thread p with unit := unitNull, pool := none }

end State

/-! ## Operations -/

/-- The operations.  A caller may map units of its own, too. -/
inductive Operation (Pool : Type u) where
  | map (p : Address) (outside : Outside)
  | unmap (unit : Address)
  | lookup (unit : Address)
  | initPool (p : Address) (pool : Pool) (outside : Outside)
  | setPool (p : Address) (pool : Pool) (outside : Outside)
  | setUnitPool (p : Address) (pool : Pool) (outside : Outside)
  | unsetPool (p : Address)

namespace Operation

variable {Pool : Type u} {Bucket : Type v}

/-- A new unit is not a built-in one, and no unit that is alive. -/
def Fresh (s : State Pool Bucket) (unit : Address) : Prop :=
  unit = unitNull ∨ (isBuiltin unit = false ∧ s.live unit = none)

instance (s : State Pool Bucket) : DecidablePred (Fresh s) := fun _ =>
  inferInstanceAs (Decidable (_ ∨ _))

/-- What the code relies on. -/
def Valid (s : State Pool Bucket) : Operation Pool → Prop
  | map _ outside => Fresh s outside.unit
  | unmap unit => s.live unit = some .caller
  | lookup unit => (s.mapped unit).isSome
  | initPool p _ outside =>
      isBuiltin p = false ∧ (s.thread p).pool.isNone ∧ Fresh s outside.unit
  | setPool p _ outside | setUnitPool p _ outside =>
      (s.thread p).pool.isSome ∧ Fresh s outside.unit
  | unsetPool p => (s.thread p).pool.isSome

instance (s : State Pool Bucket) : DecidablePred (Valid s)
  | map .. => inferInstanceAs (Decidable (Fresh _ _))
  | unmap _ => inferInstanceAs (Decidable (_ = _))
  | lookup _ | unsetPool _ => inferInstanceAs (Decidable (_ = true))
  | initPool .. | setPool .. | setUnitPool .. => inferInstanceAs (Decidable (_ ∧ _))

variable [DecidableEq Bucket] [DecidableEq Pool] (hash : Address → Bucket) (builtin : Pool → Bool)

/-- The result of an operation on a thread. -/
def result (p : Address) (ret : Code) : Except Code Address :=
  if ret = .success then .ok p else .error ret

def perform (s : State Pool Bucket) : Operation Pool →
    Option (State Pool Bucket × Except Code Address)
  | map p outside => (s.newUnit hash .caller p outside).map (Prod.map id (result p))
  | unmap unit => (s.oldUnit hash unit).map fun s => (s, .ok unitNull)
  | lookup unit => (s.unitGetThread hash unit).map fun p => (s, .ok p)
  | initPool p pool outside =>
      (s.threadInitPool hash builtin p pool outside).map (Prod.map id (result p))
  | setPool p pool outside =>
      (s.threadSetAssociatedPool hash builtin p pool outside).map (Prod.map id (result p))
  | setUnitPool p pool outside =>
      s.unitSetAssociatedPool hash builtin (s.thread p).unit pool outside
  | unsetPool p => (s.threadUnsetAssociatedPool hash p).map fun s => (s, .ok p)

end Operation

section Machine

variable {Pool : Type u} {Bucket : Type v} [DecidableEq Bucket] [DecidableEq Pool]

/-- Nothing is mapped, and no thread has a pool. -/
structure Begins (s : State Pool Bucket) : Prop where
  entries : ∀ index, s.entries index = []
  live : ∀ unit, s.live unit = none
  mapped : ∀ unit, s.mapped unit = none
  pool : ∀ p, (s.thread p).pool = none

end Machine

end ArgobotsReduction.Threads.UnitMap
