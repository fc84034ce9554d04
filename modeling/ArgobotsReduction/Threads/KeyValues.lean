import Mathlib.Data.Fintype.Basic
import ArgobotsReduction.Containers.Associations
import ArgobotsReduction.Containers.Carving
import ArgobotsReduction.Threads.KeyTable

/-!
# The values of a key table

The elements of a key table are chained by index, and each has the value of one key.
They are carved from blocks of memory behind the table itself: from what is left of the
last block, or from a new one that begins with a header.

`ABTI_ktable_set` looks for the element of its key without a lock, and once more with
the lock before it adds an element at the end of the chain.  The value of an element that
is there is stored without the lock.  `ABTI_ktable_set_unsafe` does the same without a
lock, when nobody else uses the table.  When the table is freed its elements are visited
chain by chain, and the destructor of a key is called for a value.

Callers take turns as in `Threads.KeyTable`, and they set and get values as often as they
like.  The elements in use are beside a record of the last value of every key, which no
operation reads.
-/

set_option autoImplicit false

namespace ArgobotsReduction.Threads.KeyValues

open Containers Parallel
open KeyTable (getIdx)

universe u v

/-! ## Memory -/

/-- The sizes of the data types and of the descriptors of the memory pool, the alignment as
a power of two, and the size of a table, which is an `int`. -/
structure Sizes where
  keyTableBits : ℕ
  maxAlignmentBits : ℕ
  memHeader : ℕ
  memPoolDesc : ℕ
  elemsOffset : ℕ
  pointer : ℕ
  ktelem : ℕ
  keyTableBits_lt : keyTableBits < 31
  ktelem_pos : 0 < ktelem
  memHeader_le : memHeader ≤ memPoolDesc

namespace Sizes

variable (sizes : Sizes)

/-- The size of a table is a power of two. -/
def keyTable : ℕ := 2 ^ sizes.keyTableBits

def maxAlignment : ℕ := 2 ^ sizes.maxAlignmentBits

/-- `ABTU_roundup_size` for the alignment: the lower bits are cleared. -/
def roundup (size : ℕ) : ℕ :=
  (size + sizes.maxAlignment - 1) / sizes.maxAlignment * sizes.maxAlignment

/-- `ABTI_KTABLE_DESC_SIZE` -/
def ktableDesc : ℕ := sizes.memPoolDesc - sizes.memHeader

/-- What a table takes. -/
def ktableSize : ℕ := sizes.roundup (sizes.elemsOffset + sizes.pointer * sizes.keyTable)

/-- What an element takes. -/
def ktelemSize : ℕ := sizes.roundup sizes.ktelem

theorem maxAlignment_pos : 0 < sizes.maxAlignment := Nat.two_pow_pos _

theorem le_roundup (size : ℕ) : size ≤ sizes.roundup size := by
  have positive := sizes.maxAlignment_pos
  have parts := Nat.div_add_mod (size + sizes.maxAlignment - 1) sizes.maxAlignment
  have below := Nat.mod_lt (size + sizes.maxAlignment - 1) positive
  rw [roundup, Nat.mul_comm]
  omega

theorem ktelemSize_pos : 0 < sizes.ktelemSize :=
  Nat.lt_of_lt_of_le sizes.ktelem_pos (sizes.le_roundup _)

/-- The assertion of `ABTI_ktable_alloc_elem` -/
theorem ktelemSize_mod : sizes.ktelemSize % sizes.maxAlignment = 0 := Nat.mul_mod_left ..

theorem getIdx_lt (keyId : ℕ) : getIdx sizes.keyTable keyId < sizes.keyTable :=
  Nat.lt_of_le_of_lt Nat.and_le_right (Nat.sub_one_lt_of_lt (Nat.two_pow_pos _))

end Sizes

/-- A block of memory with its header. -/
structure Block where
  region : Region
  isFromMempool : Bool

/-- `ABTI_ktelem`, at an address.  A key without a destructor has no destructor. -/
structure Elem (V : Type v) where
  address : ℕ
  destructor : Bool
  keyId : ℕ
  value : Option V

/-- `ABTI_ktable`, at an address.  `usedMem` has the blocks, latest first. -/
structure Ktable (V : Type v) where
  address : ℕ
  lock : Bool
  usedMem : List Block
  extra : Region
  elems : ℕ → List (Elem V)

/-- A key, and the value that is set. -/
structure Setting (V : Type v) where
  keyId : ℕ
  value : Option V
  deriving DecidableEq

variable {V : Type v}

namespace Ktable

variable (sizes : Sizes)

/-- `ABTI_ktable_create`, when the allocator returns the address. -/
def create (address : ℕ) : Ktable V :=
  if sizes.ktableSize ≤ sizes.ktableDesc then
    { address := address + sizes.memHeader
      lock := false
      usedMem := [⟨⟨address, sizes.memPoolDesc⟩, true⟩]
      extra := ⟨address + sizes.memHeader + sizes.ktableSize, sizes.ktableDesc - sizes.ktableSize⟩
      elems := fun _ => [] }
  else
    { address := address + sizes.memHeader
      lock := false
      usedMem := [⟨⟨address, sizes.ktableSize + sizes.memHeader⟩, false⟩]
      extra := ⟨0, 0⟩
      elems := fun _ => [] }

/-- What `ABTI_ktable_alloc_elem` asks the allocator for. -/
def requested (size : ℕ) : ℕ :=
  if size ≤ sizes.ktableDesc then sizes.memPoolDesc else size + sizes.memHeader

/-- `ABTI_ktable_alloc_elem`, with what the allocator returns if it is asked. -/
def allocElem (t : Ktable V) (size : ℕ) (allocated : Option ℕ) : Option (ℕ × Ktable V) :=
  if size ≤ t.extra.size then
    some (t.extra.start, { t with extra := ⟨t.extra.start + size, t.extra.size - size⟩ })
  else
    allocated.map fun address =>
      if size ≤ sizes.ktableDesc then
        (address + sizes.memHeader, { t with
          usedMem := ⟨⟨address, sizes.memPoolDesc⟩, true⟩ :: t.usedMem
          extra := ⟨address + sizes.memHeader + size, sizes.ktableDesc - size⟩ })
      else
        (address + sizes.memHeader, { t with
          usedMem := ⟨⟨address, size + sizes.memHeader⟩, false⟩ :: t.usedMem })

/-- The allocator returns memory that is not in use. -/
def Allocates (t : Ktable V) (size : ℕ) (allocated : Option ℕ) : Prop :=
  ∀ address ∈ allocated, ∀ b ∈ t.usedMem, b.region.Apart ⟨address, requested sizes size⟩

instance (t : Ktable V) (size : ℕ) (allocated : Option ℕ) :
    Decidable (t.Allocates sizes size allocated) :=
  inferInstanceAs (Decidable (∀ address ∈ allocated, ∀ b ∈ t.usedMem, _))

/-! ## Elements -/

/-- The chain of a key. -/
def chain (t : Ktable V) (keyId : ℕ) : List (Elem V) := t.elems (getIdx sizes.keyTable keyId)

def setChain (t : Ktable V) (keyId : ℕ) (elems : List (Elem V)) : Ktable V :=
  { t with elems := Function.update t.elems (getIdx sizes.keyTable keyId) elems }

/-- The value of an element is stored. -/
def write (t : Ktable V) (setting : Setting V) (link : ℕ) : Ktable V :=
  t.setChain sizes setting.keyId ((t.chain sizes setting.keyId).modify link fun elem =>
    { elem with value := setting.value })

/-- An element is allocated and stored in a link of a chain. -/
def add (t : Ktable V) (destructor : ℕ → Bool) (setting : Setting V) (link : ℕ)
    (allocated : Option ℕ) : Option (Ktable V) :=
  (t.allocElem sizes sizes.ktelemSize allocated).map fun (address, t) =>
    t.setChain sizes setting.keyId ((t.chain sizes setting.keyId).take link ++
      [⟨address, destructor setting.keyId, setting.keyId, setting.value⟩])

/-- The loops of `ABTI_ktable_set_impl`: the element of the key, or else the last link. -/
def search (keyId : ℕ) : List (Elem V) → Bool × ℕ
  | [] => (false, 0)
  | elem :: rest =>
      if elem.keyId = keyId then (true, 0)
      else ((search keyId rest).1, (search keyId rest).2 + 1)

/-- `ABTI_ktable_set_impl` without a lock.  The second loop begins where the first one ends,
and finds nothing. -/
def setImpl (t : Ktable V) (destructor : ℕ → Bool) (setting : Setting V) (allocated : Option ℕ) :
    Option (Ktable V) :=
  match search setting.keyId (t.chain sizes setting.keyId) with
  | (true, link) => some (t.write sizes setting link)
  | (false, link) => t.add sizes destructor setting link allocated

/-- The loop of `ABTI_ktable_get` -/
def getLoop (keyId : ℕ) : List (Elem V) → Option V
  | [] => none
  | elem :: rest => if elem.keyId = keyId then elem.value else getLoop keyId rest

def get (t : Ktable V) (keyId : ℕ) : Option V := getLoop keyId (t.chain sizes keyId)

/-- The calls of destructors in a chain, by their keys and values. -/
def freeLoop : List (Elem V) → List (ℕ × V)
  | [] => []
  | elem :: rest =>
      match elem.destructor, elem.value with
      | true, some value => (elem.keyId, value) :: freeLoop rest
      | _, _ => freeLoop rest

/-- The calls of destructors in `ABTI_ktable_free` -/
def free (t : Ktable V) : List (ℕ × V) :=
  (List.range sizes.keyTable).flatMap fun i => freeLoop (t.elems i)

end Ktable

/-! ## Callers -/

/-- `p_keytable` -/
inductive Pointer where
  | null
  | locked
  | table
  deriving DecidableEq

/-- The pointer and the table of a work unit.  `current` is the last value of every key. -/
structure State (V : Type v) where
  pointer : Pointer
  table : Ktable V
  current : ℕ → Option V

/-- The operations on the key table of a work unit. -/
inductive Operation (V : Type v) where
  | set (setting : Setting V)
  | setUnsafe (setting : Setting V)
  | get (keyId : ℕ)

/-- The operation takes no lock. -/
def Operation.isUnsafe : Operation V → Bool
  | .setUnsafe _ => true
  | _ => false

/-- What the operation sets. -/
def Operation.setting : Operation V → Option (Setting V)
  | .set setting | .setUnsafe setting => some setting
  | .get _ => none

/-- The operation that a caller begins, whether a weak compare-and-swap does not fail
spuriously, and what the allocators of a table and of an element return. -/
structure Choice (V : Type v) where
  operation : Operation V
  succeeds : Bool
  tableMem : Option ℕ
  elemMem : Option ℕ

/-- The places of `ABTI_ktable_set` and of `ABTI_ktable_get`.  In a chain, a place has the
number of the link it reads next. -/
inductive Place (V : Type v) where
  | outside
  | cas (setting : Setting V)
  | create (setting : Setting V)
  | unlock (setting : Setting V)
  | install (setting : Setting V)
  | reload (setting : Setting V)
  | spin (setting : Setting V)
  | setNull (setting : Setting V)
  | search (setting : Setting V) (link : ℕ)
  | acquire (setting : Setting V) (link : ℕ)
  | searchLocked (setting : Setting V) (link : ℕ)
  | releaseFound (setting : Setting V) (link : ℕ)
  | write (setting : Setting V) (link : ℕ)
  | add (setting : Setting V) (link : ℕ)
  | releaseFailed (setting : Setting V)
  | releaseStored (setting : Setting V)
  | failed (setting : Setting V)
  | stored (setting : Setting V)
  | walk (keyId link : ℕ)
  | got (keyId : ℕ) (value : Option V)
  deriving DecidableEq

/-- What the set of the place is to store. -/
def Place.setting : Place V → Option (Setting V)
  | .cas setting | .create setting | .unlock setting | .install setting | .reload setting
  | .spin setting | .setNull setting | .search setting _ | .acquire setting _
  | .searchLocked setting _ | .releaseFound setting _ | .write setting _ | .add setting _
  | .releaseFailed setting | .releaseStored setting | .failed setting | .stored setting =>
      some setting
  | .outside | .walk _ _ | .got _ _ => none

/-- What the next turn works on: a call begins with its operation. -/
def Place.asked (operation : Operation V) : Place V → Option (Setting V)
  | .outside => operation.setting
  | place => place.setting

/-- The operation has its result at the place. -/
def Place.Ends : Place V → Prop
  | .failed _ | .stored _ | .got _ _ => True
  | _ => False

namespace State

variable (sizes : Sizes)

def setLock (s : State V) (lock : Bool) : State V :=
  { s with table := { s.table with lock := lock } }

/-- The table changes, and the setting is the last one of its key. -/
def record (s : State V) (setting : Setting V) (table : Ktable V) : State V :=
  { s with
    table := table
    current := Function.update s.current setting.keyId setting.value }

/-- `ABTI_ktable_set_impl` without a lock, and whether it succeeds. -/
def setImpl (s : State V) (destructor : ℕ → Bool) (setting : Setting V) (elemMem : Option ℕ) :
    Option (State V × Bool) :=
  if s.table.Allocates sizes sizes.ktelemSize elemMem then
    match s.table.setImpl sizes destructor setting elemMem with
    | none => some (s, false)
    | some table => some (s.record setting table, true)
  else none

/-- `ABTI_ktable_set_unsafe`, and whether it succeeds. -/
def setUnsafe (s : State V) (destructor : ℕ → Bool) (setting : Setting V)
    (tableMem elemMem : Option ℕ) : Option (State V × Bool) :=
  if s.pointer = .table then s.setImpl sizes destructor setting elemMem
  else
    match tableMem with
    | none => some (s, false)
    | some address =>
        { s with pointer := .table, table := Ktable.create sizes address }.setImpl sizes destructor
          setting elemMem

/-- `ABTI_ktable_get` -/
def get (s : State V) (keyId : ℕ) : Option V :=
  if s.pointer = .table then s.table.get sizes keyId else none

end State

/-- A turn of a caller. -/
def turn (sizes : Sizes) (destructor : ℕ → Bool) (choice : Choice V) (s : State V) :
    Place V → Option (State V × Place V)
  | .outside =>
      match choice.operation with
      | .set setting => some (s, if s.pointer = .table then .search setting 0 else .cas setting)
      | .setUnsafe setting =>
          (s.setUnsafe sizes destructor setting choice.tableMem choice.elemMem).map fun result =>
            (result.1, if result.2 then .stored setting else .failed setting)
      | .get keyId => some (s, if s.pointer = .table then .walk keyId 0 else .got keyId none)
  | .cas setting =>
      if s.pointer = .null ∧ choice.succeeds then
        some ({ s with pointer := .locked }, .create setting)
      else some (s, .reload setting)
  | .create setting =>
      match choice.tableMem with
      | none => some (s, .unlock setting)
      | some address => some ({ s with table := Ktable.create sizes address }, .install setting)
  | .unlock setting => some ({ s with pointer := .null }, .failed setting)
  | .install setting => some ({ s with pointer := .table }, .search setting 0)
  | .reload setting =>
      match s.pointer with
      | .null => some (s, .cas setting)
      | .locked => some (s, .spin setting)
      | .table => some (s, .search setting 0)
  | .spin setting =>
      match s.pointer with
      | .null => some (s, .setNull setting)
      | .locked => some (s, .spin setting)
      | .table => some (s, .search setting 0)
  -- a NULL pointer cannot be dereferenced
  | .setNull _ => none
  | .search setting link =>
      match (s.table.chain sizes setting.keyId)[link]? with
      | none => some (s, .acquire setting link)
      | some elem =>
          if elem.keyId = setting.keyId then some (s, .write setting link)
          else some (s, .search setting (link + 1))
  | .acquire setting link =>
      if s.table.lock then none else some (s.setLock true, .searchLocked setting link)
  | .searchLocked setting link =>
      match (s.table.chain sizes setting.keyId)[link]? with
      | none => some (s, .add setting link)
      | some elem =>
          if elem.keyId = setting.keyId then some (s, .releaseFound setting link)
          else some (s, .searchLocked setting (link + 1))
  | .releaseFound setting link => some (s.setLock false, .write setting link)
  | .write setting link =>
      some (s.record setting (s.table.write sizes setting link), .stored setting)
  | .add setting link =>
      if s.table.Allocates sizes sizes.ktelemSize choice.elemMem then
        match s.table.add sizes destructor setting link choice.elemMem with
        | none => some (s, .releaseFailed setting)
        | some table => some (s.record setting table, .releaseStored setting)
      else none
  | .releaseFailed setting => some (s.setLock false, .failed setting)
  | .releaseStored setting => some (s.setLock false, .stored setting)
  | .failed _ | .stored _ | .got _ _ => some (s, .outside)
  | .walk keyId link =>
      match (s.table.chain sizes keyId)[link]? with
      | none => some (s, .got keyId none)
      | some elem =>
          if elem.keyId = keyId then some (s, .got keyId elem.value)
          else some (s, .walk keyId (link + 1))

/-- Callers of the key table of a work unit. -/
def calls (ι : Type u) (sizes : Sizes) (destructor : ℕ → Bool) :
    Callers ι (State V) (Place V) (Choice V) where
  turn _ choice s place := turn sizes destructor choice s place

/-- The work unit has no table yet. -/
def Begins {ι : Type u} (world : World ι (State V) (Place V)) : Prop :=
  world.shared.pointer = .null ∧ (∀ keyId, world.shared.current keyId = none) ∧
    ∀ c, world.place c = .outside

/-- A set without a lock begins only when nobody else uses the table. -/
def Exclusive {ι : Type u} (world : World ι (State V) (Place V)) (event : ι × Choice V) : Prop :=
  event.2.operation.isUnsafe = true → ∀ c, world.place c = .outside

instance {ι : Type u} [Fintype ι] [DecidableEq V] (world : World ι (State V) (Place V))
    (event : ι × Choice V) : Decidable (Exclusive world event) :=
  inferInstanceAs (Decidable (_ → ∀ _, _))

end ArgobotsReduction.Threads.KeyValues
