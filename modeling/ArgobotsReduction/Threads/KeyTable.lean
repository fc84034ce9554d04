import Mathlib.Data.Nat.Bitwise
import ArgobotsReduction.Parallel.Machine

/-!
# Lazy creation of a key table

The key table of a work unit is created by the first `ABTI_ktable_set`.  Its pointer
is empty, locked by the caller that creates the table, or the table.  A caller
that finds it locked spins until it is not.

The elements of a table are chained by index.  `ABTI_ktable_set_impl` walks the chain
of its key without a lock, and walks on with the lock of the table before it adds an
element at the end.

Callers take turns, and a turn is one access to the pointer, to a link of a chain,
to a value or to the lock.  Allocations may fail, and so may the weak
compare-and-swap.
-/

set_option autoImplicit false

namespace ArgobotsReduction.Threads.KeyTable

open Parallel

universe u v

variable {ι : Type u} {V : Type v}

/-- `p_keytable`, with a number for each table. -/
inductive Pointer where
  | null
  | locked
  | table (id : ℕ)
  deriving DecidableEq

/-- `ABTI_ktelem` -/
structure Elem (V : Type v) where
  keyId : ℕ
  value : V

/-- `ABTI_ktable`: the chains of its elements, and its lock. -/
structure Ktable (V : Type v) where
  elems : ℕ → List (Elem V)
  lock : Bool

/-- The pointer of the work unit, the tables, how many have been created, and how
often one has been stored in the pointer. -/
structure Keytables (V : Type v) where
  pointer : Pointer
  tables : ℕ → Ktable V
  created : ℕ
  installs : ℕ

/-- The places of `ABTI_ktable_set` and `ABTI_ktable_set_impl`.  In a chain, a place
has the number of the link it reads next. -/
inductive Place where
  | begin
  | cas
  | create
  | unlock
  | install (table : ℕ)
  | reload
  | spin
  | setImpl (pointer : Pointer)
  | search (table link : ℕ)
  | acquire (table link : ℕ)
  | searchLocked (table link : ℕ)
  | releaseFound (table link : ℕ)
  | alloc (table link : ℕ)
  | releaseFailed (table : ℕ)
  | append (table link : ℕ)
  | releaseStored (table : ℕ)
  | write (table link : ℕ)
  | returned (success : Bool)
  deriving DecidableEq

/-- What a caller sets. -/
structure Setting (V : Type v) where
  keyId : ℕ
  value : V

/-- `ABTI_ktable_get_idx` -/
def getIdx (size keyId : ℕ) : ℕ := keyId &&& (size - 1)

/-- An empty table. -/
def Ktable.empty : Ktable V where
  elems _ := []
  lock := false

namespace Keytables

/-- The chain of a key. -/
def chain (s : Keytables V) (size table keyId : ℕ) : List (Elem V) :=
  (s.tables table).elems (getIdx size keyId)

def setChain (s : Keytables V) (size table keyId : ℕ) (elems : List (Elem V)) : Keytables V :=
  { s with
    tables := Function.update s.tables table
      { s.tables table with
        elems := Function.update (s.tables table).elems (getIdx size keyId) elems } }

def setLock (s : Keytables V) (table : ℕ) (lock : Bool) : Keytables V :=
  { s with tables := Function.update s.tables table { s.tables table with lock := lock } }

/-- `ABTI_ktable_get` -/
def get (s : Keytables V) (size table keyId : ℕ) : Option V :=
  ((s.chain size table keyId).find? fun elem => elem.keyId == keyId).map Elem.value

end Keytables

/-- A turn of a caller.  The flag says whether the compare-and-swap does not fail
spuriously, and whether an allocation succeeds. -/
def turn (size : ℕ) (setting : Setting V) (succeeds : Bool) (s : Keytables V) :
    Place → Option (Keytables V × Place)
  | .begin =>
      match s.pointer with
      | .table id => some (s, .setImpl (.table id))
      | _ => some (s, .cas)
  | .cas =>
      if s.pointer = .null ∧ succeeds then some ({ s with pointer := .locked }, .create)
      else some (s, .reload)
  | .create =>
      if succeeds then
        some ({ s with
          tables := Function.update s.tables s.created Ktable.empty
          created := s.created + 1 }, .install s.created)
      else some (s, .unlock)
  | .unlock => some ({ s with pointer := .null }, .returned false)
  | .install table =>
      some ({ s with pointer := .table table, installs := s.installs + 1 },
        .setImpl (.table table))
  | .reload =>
      match s.pointer with
      | .null => some (s, .cas)
      | .locked => some (s, .spin)
      | .table id => some (s, .setImpl (.table id))
  | .spin =>
      match s.pointer with
      | .locked => some (s, .spin)
      | pointer => some (s, .setImpl pointer)
  | .setImpl pointer =>
      match pointer with
      | .table id => some (s, .search id 0)
      -- a NULL pointer and the lock marker cannot be dereferenced
      | _ => none
  | .search table link =>
      match (s.chain size table setting.keyId)[link]? with
      | none => some (s, .acquire table link)
      | some elem =>
          if elem.keyId = setting.keyId then some (s, .write table link)
          else some (s, .search table (link + 1))
  | .acquire table link =>
      if (s.tables table).lock then none
      else some (s.setLock table true, .searchLocked table link)
  | .searchLocked table link =>
      match (s.chain size table setting.keyId)[link]? with
      | none => some (s, .alloc table link)
      | some elem =>
          if elem.keyId = setting.keyId then some (s, .releaseFound table link)
          else some (s, .searchLocked table (link + 1))
  | .releaseFound table link => some (s.setLock table false, .write table link)
  | .alloc table link => some (s, if succeeds then .append table link else .releaseFailed table)
  | .releaseFailed table => some (s.setLock table false, .returned false)
  | .append table link =>
      some (s.setChain size table setting.keyId
        ((s.chain size table setting.keyId).take link ++ [⟨setting.keyId, setting.value⟩]),
        .releaseStored table)
  | .releaseStored table => some (s.setLock table false, .returned true)
  | .write table link =>
      some (s.setChain size table setting.keyId
        ((s.chain size table setting.keyId).modify link fun elem =>
          { elem with value := setting.value }), .returned true)
  | .returned _ => none

/-- Calls of `ABTI_ktable_set`, one by each caller. -/
def calls (size : ℕ) (settings : ι → Setting V) : Callers ι (Keytables V) Place Bool where
  turn c succeeds s place := turn size (settings c) succeeds s place

/-- The work unit has no table yet. -/
def Begins (world : World ι (Keytables V) Place) : Prop :=
  world.shared.pointer = .null ∧ world.shared.created = 0 ∧ world.shared.installs = 0 ∧
    ∀ c, world.place c = .begin

end ArgobotsReduction.Threads.KeyTable
