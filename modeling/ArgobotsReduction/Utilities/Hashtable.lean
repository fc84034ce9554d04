import Mathlib.Algebra.Group.Int.Defs
import Mathlib.Algebra.Group.Nat.Defs
import Mathlib.Data.Int.Basic
import Mathlib.Data.List.Perm.Subperm
import ArgobotsReduction.Containers.Associations
import ArgobotsReduction.Containers.LinkedChain
import ArgobotsReduction.Utilities.Rounding

/-!
# The hash table

`ABTU_hashtable` has a bucket for every remainder of a key.  The first element of a
bucket lies in the table itself, and is empty where its data pointer is NULL.  The
others are allocated one by one and chained behind it.  When the first element is
deleted, its successor is copied over it and freed.

The table refines a finite map in all its operations, and frees exactly the elements it
takes out of the chains, whatever is set and deleted.  Only the flag of a deletion may be
wrong: it is not written where the bucket has one element, with another key.  A
sequence of operations refines a map if and only if no flag is lost in this way
(`refinesMap_iff`).

The size of the table is calculated in a `size_t`.  Its first elements lie in the memory that
is allocated if and only if that calculation does not wrap (`entries_inside_iff`), and this
is what `Fits` says of a table.
-/

set_option autoImplicit false

namespace ArgobotsReduction.Utilities.Hashtable

open Containers

universe u

/-! ## The size of the table -/

/-- `sizeof(ABTU_hashtable)` -/
def sizeofTable : ℕ := 16

/-- `sizeof(ABTU_hashtable_element)` -/
def sizeofElement : ℕ := 24

/-- `ABT_CONFIG_STATIC_CACHELINE_SIZE` -/
def cacheline : ℕ := 64

/-- `hashtable_element_size` -/
def elementSize (dataSize : ℕ) : ℕ := roundup 64 (asBits 64 (sizeofElement + dataSize)) cacheline

/-- What `ABTU_hashtable_create` allocates -/
def tableSize (numEntries dataSize : ℕ) : ℕ :=
  asBits 64 (sizeofTable + elementSize dataSize * numEntries)

/-- Where `get_element` finds an element -/
def elementOffset (dataSize entryIndex : ℕ) : ℕ := sizeofTable + elementSize dataSize * entryIndex

/-- The size of an element and the size of the table do not wrap. -/
def Fits (numEntries dataSize : ℕ) : Prop :=
  sizeofElement + dataSize + cacheline ≤ 2 ^ 64 ∧
    sizeofTable + elementSize dataSize * numEntries < 2 ^ 64

instance (numEntries dataSize : ℕ) : Decidable (Fits numEntries dataSize) :=
  inferInstanceAs (Decidable (_ ∧ _))

/-- An element has room for its data. -/
theorem le_elementSize {dataSize : ℕ} (fits : sizeofElement + dataSize + cacheline ≤ 2 ^ 64) :
    sizeofElement + dataSize ≤ elementSize dataSize := by
  have small : sizeofElement + dataSize < 2 ^ 64 :=
    Nat.lt_of_lt_of_le (Nat.lt_add_of_pos_right (by decide)) fits
  rw [elementSize, asBits_of_lt small]
  exact le_roundup (c := 6) (by decide) fits

theorem Fits.numEntries_lt {numEntries dataSize : ℕ} (fits : Fits numEntries dataSize) :
    numEntries < 2 ^ 64 := by
  have positive : 0 < elementSize dataSize :=
    Nat.lt_of_lt_of_le (Nat.lt_of_lt_of_le (by decide) (Nat.le_add_right sizeofElement dataSize))
      (le_elementSize fits.1)
  exact Nat.lt_of_le_of_lt
    ((Nat.le_mul_of_pos_left numEntries positive).trans (Nat.le_add_left _ _)) fits.2

/-- **The first elements lie in the memory of the table if and only if its size does not
wrap.** -/
theorem entries_inside_iff {numEntries dataSize : ℕ} (positive : 0 < numEntries)
    (fits : sizeofElement + dataSize + cacheline ≤ 2 ^ 64) :
    (∀ i < numEntries, elementOffset dataSize i + elementSize dataSize ≤
      tableSize numEntries dataSize) ↔ Fits numEntries dataSize := by
  have ends : ∀ i, elementOffset dataSize i + elementSize dataSize =
      sizeofTable + elementSize dataSize * (i + 1) := fun i => by
    rw [elementOffset, Nat.mul_succ, Nat.add_assoc]
  constructor
  · intro inside
    have last := inside (numEntries - 1) (Nat.sub_lt positive Nat.one_pos)
    rw [ends, Nat.sub_add_cancel positive] at last
    exact ⟨fits, Nat.lt_of_le_of_lt last (asBits_lt ..)⟩
  · rintro ⟨-, small⟩ i below
    rw [ends, tableSize, asBits_of_lt small]
    exact Nat.add_le_add_left (Nat.mul_le_mul_left _ below) _

/-! ## The table -/

/-- An element: the first one of a bucket, or one that has been allocated -/
inductive Element where
  | entry (i : ℕ)
  | heap (n : ℕ)
  deriving DecidableEq

/-- `ABTU_hashtable` and its elements.  The data of an element are where its data pointer says,
which is NULL or leads to the place behind an element.  We also keep how many elements have been
allocated, and which have been freed. -/
structure Table (Data : Type u) where
  numEntries : ℕ
  dataSize : ℕ
  positive : 0 < numEntries
  fits : Fits numEntries dataSize
  key : Element → ℤ
  next : Element → Option Element
  data : Element → Option Element
  place : Element → Data
  allocated : ℕ
  freed : List ℕ

variable {Data : Type u}

/-- The error codes -/
inductive Code where
  | success
  /-- `ABT_ERR_MEM` -/
  | mem
  deriving DecidableEq

/-- A flag that is reported: a null pointer, or a variable with its value -/
abbrev Flag := Option Bool

def Flag.report (flag : Flag) (value : Bool) : Flag := flag.map fun _ => value

/-- A value that is stored in an `ssize_t` -/
def asSsize (x : ℤ) : ℤ := x.bmod (2 ^ 64)

/-- `ABTU_hashtable_create`, where the memory can be allocated.  It is cleared. -/
def create (numEntries dataSize : ℕ) (positive : 0 < numEntries) (fits : Fits numEntries dataSize)
    (zero : Data) : Table Data where
  numEntries := numEntries
  dataSize := dataSize
  positive := positive
  fits := fits
  key _ := 0
  next _ := none
  data _ := none
  place _ := zero
  allocated := 0
  freed := []

namespace Table

/-- The index of the bucket of a key -/
def entryIndex (t : Table Data) (key : ℤ) : ℕ :=
  let entryIndexTmp := key.tmod (asSsize t.numEntries)
  if entryIndexTmp < 0 then ((entryIndexTmp + t.numEntries) % 2 ^ 64).toNat
  else entryIndexTmp.toNat

/-- The data of an element -/
def read (t : Table Data) (e : Element) : Option Data := (t.data e).map t.place

/-- `memcpy` to the data of an element -/
def write (t : Table Data) (e : Element) (data : Data) : Table Data :=
  match t.data e with
  | none => t
  | some place => { t with place := Function.update t.place place data }

/-- The first element of a bucket takes a key. -/
def fill (t : Table Data) (i : ℕ) (key : ℤ) (data : Data) : Table Data :=
  { t with
    key := Function.update t.key (.entry i) key
    data := Function.update t.data (.entry i) (some (.entry i))
    place := Function.update t.place (.entry i) data }

/-- A new element behind another one -/
def append (t : Table Data) (last : Element) (key : ℤ) (data : Data) : Table Data :=
  { t with
    key := Function.update t.key (.heap t.allocated) key
    next := Function.update (Function.update t.next (.heap t.allocated) none) last
      (some (.heap t.allocated))
    data := Function.update t.data (.heap t.allocated) (some (.heap t.allocated))
    place := Function.update t.place (.heap t.allocated) data
    allocated := t.allocated + 1 }

/-- `ABTU_free` of an element -/
def free (t : Table Data) : Element → Table Data
  | .entry _ => t
  | .heap n => { t with freed := t.freed ++ [n] }

/-- An element is copied over the first one of a bucket, with its data.  The data pointer is
calculated again. -/
def copyToEntry (t : Table Data) (i : ℕ) (e : Element) : Table Data :=
  { t with
    key := Function.update t.key (.entry i) (t.key e)
    next := Function.update t.next (.entry i) (t.next e)
    data := Function.update t.data (.entry i) (some (.entry i))
    place := Function.update t.place (.entry i) (t.place e) }

/-- The first element of a bucket becomes empty. -/
def clear (t : Table Data) (i : ℕ) : Table Data :=
  { t with data := Function.update t.data (.entry i) none }

/-- The link to an element is replaced by the link to the one behind. -/
def unlink (t : Table Data) (before e : Element) : Table Data :=
  { t with next := Function.update t.next before (t.next e) }

/-- The loop of `ABTU_hashtable_get`: the data that are copied, and whether the key is found -/
def getLoop (t : Table Data) (key : ℤ) : ℕ → Element → Option (Option Data × Bool)
  | 0, _ => none
  | turns + 1, e =>
      if t.key e = key then some (t.read e, true)
      else
        match t.next e with
        | none => some (none, false)
        | some next => getLoop t key turns next

/-- `ABTU_hashtable_get`.  A chain has at most as many elements as have been allocated. -/
def get (t : Table Data) (key : ℤ) : Option (Option Data × Bool) :=
  match t.data (.entry (t.entryIndex key)) with
  | none => some (none, false)
  | some _ => t.getLoop key (t.allocated + 1) (.entry (t.entryIndex key))

/-- The loop of `ABTU_hashtable_set` -/
def setLoop (t : Table Data) (allocates : Bool) (key : ℤ) (data : Data) (overwritten : Flag) :
    ℕ → Element → Option (Table Data × Code × Flag)
  | 0, _ => none
  | turns + 1, e =>
      if t.key e = key then some (t.write e data, .success, overwritten.report true)
      else
        match t.next e with
        | none =>
            if allocates then some (t.append e key data, .success, overwritten.report false)
            else some (t, .mem, overwritten)
        | some next => setLoop t allocates key data overwritten turns next

/-- `ABTU_hashtable_set` -/
def set (t : Table Data) (allocates : Bool) (key : ℤ) (data : Data) (overwritten : Flag) :
    Option (Table Data × Code × Flag) :=
  match t.data (.entry (t.entryIndex key)) with
  | none => some (t.fill (t.entryIndex key) key data, .success, overwritten.report false)
  | some _ =>
      t.setLoop allocates key data overwritten (t.allocated + 1) (.entry (t.entryIndex key))

/-- The loop of `ABTU_hashtable_delete`, where the pointer leads to the link of an element -/
def deleteLoop (t : Table Data) (key : ℤ) (deleted : Flag) :
    ℕ → Element → Option (Table Data × Flag)
  | 0, _ => none
  | turns + 1, before =>
      match t.next before with
      | none => some (t, deleted)
      | some e =>
          if t.key e = key then some ((t.unlink before e).free e, deleted.report true)
          else if t.next e = none then some (t, deleted.report false)
          else deleteLoop t key deleted turns e

/-- `ABTU_hashtable_delete` -/
def delete (t : Table Data) (key : ℤ) (deleted : Flag) : Option (Table Data × Flag) :=
  let i := t.entryIndex key
  match t.data (.entry i) with
  | none => some (t, deleted.report false)
  | some _ =>
      if t.key (.entry i) = key then
        match t.next (.entry i) with
        | some next => some ((t.copyToEntry i next).free next, deleted.report true)
        | none => some (t.clear i, deleted.report true)
      else t.deleteLoop key deleted (t.allocated + 1) (.entry i)

end Table

/-! ## Operations -/

/-- A call, with the value of the variable for its flag -/
inductive Op (Data : Type u) where
  | get (key : ℤ) (found : Flag)
  | set (key : ℤ) (data : Data) (overwritten : Flag) (allocates : Bool)
  | delete (key : ℤ) (deleted : Flag)

/-- What a call returns and stores -/
inductive Result (Data : Type u) where
  | got (data : Option Data) (found : Flag)
  | set (code : Code) (overwritten : Flag)
  | deleted (deleted : Flag)
  deriving DecidableEq

def Table.perform (t : Table Data) : Op Data → Option (Table Data × Result Data)
  | .get key found => (t.get key).map fun r => (t, .got r.1 (found.report r.2))
  | .set key data overwritten allocates =>
      (t.set allocates key data overwritten).map fun r => (r.1, .set r.2.1 r.2.2)
  | .delete key deleted => (t.delete key deleted).map fun r => (r.1, .deleted r.2)

/-! ## What has to hold -/

/-- The operations of a finite map.  A new key cannot be set where there is no memory. -/
inductive MapStep (f : ℤ → Option Data) : Op Data → Result Data → (ℤ → Option Data) → Prop
  | get (key : ℤ) (found : Flag) :
      MapStep f (.get key found) (.got (f key) (found.report (f key).isSome)) f
  | set (key : ℤ) (data : Data) (overwritten : Flag) (allocates : Bool) :
      MapStep f (.set key data overwritten allocates)
        (.set .success (overwritten.report (f key).isSome)) (Function.update f key (some data))
  | setFails (key : ℤ) (data : Data) (overwritten : Flag) : f key = none →
      MapStep f (.set key data overwritten false) (.set .mem overwritten) f
  | delete (key : ℤ) (deleted : Flag) :
      MapStep f (.delete key deleted) (.deleted (deleted.report (f key).isSome))
        (Function.update f key none)

theorem MapStep.of_delete {f g : ℤ → Option Data} {key : ℤ} {deleted : Flag}
    {result : Result Data} (step : MapStep f (.delete key deleted) result g) :
    result = .deleted (deleted.report (f key).isSome) ∧ g = Function.update f key none := by
  cases step
  exact ⟨rfl, rfl⟩

/-- The bucket of a key has one element, and that has another key. -/
def Table.OnlyOther (t : Table Data) (key : ℤ) : Prop :=
  t.data (.entry (t.entryIndex key)) ≠ none ∧ t.key (.entry (t.entryIndex key)) ≠ key ∧
    t.next (.entry (t.entryIndex key)) = none

/-- A deletion does not rely on a flag that is not written. -/
def Op.Reported (t : Table Data) : Op Data → Prop
  | .delete key deleted => deleted = some true → ¬ t.OnlyOther key
  | _ => True

namespace Table

variable {t t' : Table Data} {i : ℕ} {es es' : List Element} {key : ℤ}

/-- A key has a bucket, whatever its sign. -/
theorem entryIndex_lt (t : Table Data) (key : ℤ) : t.entryIndex key < t.numEntries := by
  have positive := t.positive
  have bounded := t.fits.numEntries_lt
  have divisor : asSsize t.numEntries = t.numEntries ∨
      asSsize t.numEntries = -(2 ^ 64 - t.numEntries : ℤ) ∧ 2 ^ 63 ≤ t.numEntries := by
    unfold asSsize
    rcases Nat.lt_or_ge t.numEntries (2 ^ 63) with small | large
    · exact .inl (Int.bmod_eq_of_le (by omega) (by omega))
    · refine .inr ⟨?_, large⟩
      rw [← Int.sub_bmod_right, Int.bmod_eq_of_le (by omega) (by omega)]
      omega
  have below : -(t.numEntries : ℤ) < key.tmod (asSsize t.numEntries) ∧
      key.tmod (asSsize t.numEntries) < t.numEntries := by
    rcases divisor with same | ⟨negative, large⟩
    · rw [same]
      exact ⟨Int.lt_tmod_of_pos _ (by omega), Int.tmod_lt_of_pos _ (by omega)⟩
    · rw [negative, Int.tmod_neg]
      have above := Int.lt_tmod_of_pos key (b := 2 ^ 64 - t.numEntries) (by omega)
      have under := Int.tmod_lt_of_pos key (b := 2 ^ 64 - t.numEntries) (by omega)
      omega
  unfold entryIndex
  dsimp only
  split_ifs with negative
  · rw [Int.emod_eq_of_lt (by omega) (by omega)]
    omega
  · omega

theorem entryIndex_congr (numEntries : t'.numEntries = t.numEntries) (key : ℤ) :
    t'.entryIndex key = t.entryIndex key := by
  unfold entryIndex
  rw [numEntries]

/-- The keys and the data of some elements -/
def contents (t : Table Data) (es : List Element) : List (ℤ × Data) :=
  es.map fun e => (t.key e, t.place e)

theorem map_fst_contents (t : Table Data) (es : List Element) :
    (t.contents es).map Prod.fst = es.map t.key := by
  simp [contents]

theorem lookup_contents_of_ne {e : Element} (other : t.key e ≠ key) :
    (t.contents (e :: es)).lookup key = (t.contents es).lookup key := by
  have differs : (key == t.key e) = false := beq_false_of_ne other.symm
  rw [contents, List.map_cons, List.lookup_cons, differs]
  rfl

/-- The elements that are used of a bucket, the first one first -/
structure Bucket (t : Table Data) (i : ℕ) (es : List Element) : Prop where
  linked : es ≠ [] → Linked t.next (some (.entry i)) es
  empty : es = [] → t.data (.entry i) = none ∧ t.next (.entry i) = none
  own : ∀ e ∈ es, t.data e = some e
  known : ∀ e ∈ es, e = .entry i ∨ ∃ n < t.allocated, e = .heap n
  nodup : es.Nodup
  keys : (es.map t.key).Nodup
  index : ∀ e ∈ es, t.entryIndex (t.key e) = i

theorem Bucket.distinct (bucket : t.Bucket i es) : ((t.contents es).map Prod.fst).Nodup := by
  rw [map_fst_contents]
  exact bucket.keys

/-- The bucket is used exactly where the data pointer is not NULL. -/
theorem Bucket.eq_cons (bucket : t.Bucket i es) {place : Element}
    (used : t.data (.entry i) = some place) : ∃ rest, es = .entry i :: rest := by
  cases es with
  | nil =>
      rw [(bucket.empty rfl).1] at used
      cases used
  | cons e rest =>
      obtain ⟨same, -⟩ := bucket.linked (List.cons_ne_nil e rest)
      exact ⟨rest, by rw [Option.some.inj same]⟩

theorem Bucket.eq_nil (bucket : t.Bucket i es) (unused : t.data (.entry i) = none) : es = [] := by
  cases es with
  | nil => rfl
  | cons e rest =>
      obtain ⟨same, -⟩ := bucket.linked (List.cons_ne_nil e rest)
      have own := bucket.own e List.mem_cons_self
      rw [← Option.some.inj same, unused] at own
      cases own

/-- The chain behind the first element has at most as many elements as have been allocated. -/
theorem Bucket.length_le {rest : List Element} (bucket : t.Bucket i (.entry i :: rest)) :
    rest.length < t.allocated + 1 := by
  obtain ⟨notFirst, nodup⟩ := List.nodup_cons.mp bucket.nodup
  have subset : rest ⊆ (List.range t.allocated).map .heap := by
    intro e member
    rcases bucket.known e (List.mem_cons_of_mem _ member) with rfl | ⟨n, below, rfl⟩
    · exact absurd member notFirst
    · exact List.mem_map_of_mem (List.mem_range.mpr below)
  have length := (List.subperm_of_subset nodup subset).length_le
  rw [List.length_map, List.length_range] at length
  omega

/-! ## The loops -/

variable {e : Element}

theorem getLoop_eq {turns : ℕ} (linked : Linked t.next (some e) (e :: es))
    (own : ∀ x ∈ e :: es, t.data x = some x) (enough : es.length < turns) :
    t.getLoop key turns e =
      some ((t.contents (e :: es)).lookup key, ((t.contents (e :: es)).lookup key).isSome) := by
  induction es generalizing e turns with
  | nil =>
      obtain ⟨turns, rfl⟩ := Nat.exists_eq_add_one_of_ne_zero (Nat.ne_zero_of_lt enough)
      have last : t.next e = none := linked.2
      rw [getLoop]
      by_cases found : t.key e = key
      · simp [found, read, own e List.mem_cons_self, contents]
      · rw [if_neg found, last, lookup_contents_of_ne found]
        rfl
  | cons x es ih =>
      obtain ⟨turns, rfl⟩ := Nat.exists_eq_add_one_of_ne_zero (Nat.ne_zero_of_lt enough)
      obtain ⟨next, tail⟩ := linked.2
      rw [getLoop]
      by_cases found : t.key e = key
      · simp [found, read, own e List.mem_cons_self, contents]
      · rw [if_neg found, next]
        dsimp only
        rw [lookup_contents_of_ne found]
        exact ih ⟨rfl, tail⟩ (fun y member => own y (List.mem_cons_of_mem _ member))
          (Nat.lt_of_succ_lt_succ enough)

theorem setLoop_eq {turns : ℕ} (key : ℤ) (allocates : Bool) (data : Data) (overwritten : Flag)
    (linked : Linked t.next (some e) (e :: es)) (enough : es.length < turns) :
    (∃ front x back, e :: es = front ++ x :: back ∧ t.key x = key ∧
        t.setLoop allocates key data overwritten turns e =
          some (t.write x data, .success, overwritten.report true)) ∨
      key ∉ (e :: es).map t.key ∧ ∃ front last, e :: es = front ++ [last] ∧
        t.setLoop allocates key data overwritten turns e =
          if allocates then some (t.append last key data, .success, overwritten.report false)
          else some (t, .mem, overwritten) := by
  induction es generalizing e turns with
  | nil =>
      obtain ⟨turns, rfl⟩ := Nat.exists_eq_add_one_of_ne_zero (Nat.ne_zero_of_lt enough)
      have last : t.next e = none := linked.2
      rw [setLoop]
      by_cases found : t.key e = key
      · exact .inl ⟨[], e, [], rfl, found, if_pos found⟩
      · rw [if_neg found, last]
        exact .inr ⟨by simpa using Ne.symm found, [], e, rfl, rfl⟩
  | cons x es ih =>
      obtain ⟨turns, rfl⟩ := Nat.exists_eq_add_one_of_ne_zero (Nat.ne_zero_of_lt enough)
      obtain ⟨next, tail⟩ := linked.2
      rw [setLoop]
      by_cases found : t.key e = key
      · exact .inl ⟨[], e, x :: es, rfl, found, if_pos found⟩
      · rw [if_neg found, next]
        dsimp only
        rcases ih ⟨rfl, tail⟩ (Nat.lt_of_succ_lt_succ enough) with
          ⟨front, y, back, split, here, written⟩ | ⟨absent, front, last, split, appended⟩
        · exact .inl ⟨e :: front, y, back, by rw [split]; rfl, here, written⟩
        · refine .inr ⟨?_, e :: front, last, by rw [split]; rfl, appended⟩
          rw [List.map_cons, List.mem_cons, not_or]
          exact ⟨Ne.symm found, absent⟩

theorem deleteLoop_eq {turns : ℕ} (key : ℤ) (deleted : Flag) (linked : Linked t.next (t.next e) es)
    (enough : es.length < turns) :
    (∃ front before x back, e :: es = front ++ before :: x :: back ∧ t.key x = key ∧
        t.deleteLoop key deleted turns e =
          some ((t.unlink before x).free x, deleted.report true)) ∨
      key ∉ es.map t.key ∧ t.deleteLoop key deleted turns e =
        some (t, if es = [] then deleted else deleted.report false) := by
  induction es generalizing e turns with
  | nil =>
      obtain ⟨turns, rfl⟩ := Nat.exists_eq_add_one_of_ne_zero (Nat.ne_zero_of_lt enough)
      have last : t.next e = none := linked
      rw [deleteLoop, last]
      exact .inr ⟨List.not_mem_nil, rfl⟩
  | cons x es ih =>
      obtain ⟨turns, rfl⟩ := Nat.exists_eq_add_one_of_ne_zero (Nat.ne_zero_of_lt enough)
      obtain ⟨next, tail⟩ := linked
      rw [deleteLoop, next]
      dsimp only
      by_cases found : t.key x = key
      · rw [if_pos found]
        exact .inl ⟨[], e, x, es, rfl, found, rfl⟩
      · rw [if_neg found]
        have other : key ≠ t.key x := Ne.symm found
        cases es with
        | nil =>
            have last : t.next x = none := tail
            rw [if_pos last]
            exact .inr ⟨by simpa using other, rfl⟩
        | cons y es =>
            rw [if_neg (by simp [tail.1])]
            rcases ih tail (Nat.lt_of_succ_lt_succ enough) with
              ⟨front, before, z, back, split, here, removed⟩ | ⟨absent, kept⟩
            · exact .inl ⟨e :: front, before, z, back, by rw [split]; rfl, here, removed⟩
            · refine .inr ⟨?_, kept⟩
              rw [List.map_cons, List.mem_cons, not_or]
              exact ⟨other, absent⟩

/-! ## Changes in one bucket -/

/-- The two tables have the same element. -/
structure SameAt (t t' : Table Data) (e : Element) : Prop where
  key : t'.key e = t.key e
  next : t'.next e = t.next e
  data : t'.data e = t.data e
  place : t'.place e = t.place e

theorem contents_congr (same : ∀ e ∈ es, SameAt t t' e) : t'.contents es = t.contents es :=
  List.map_congr_left fun e member => by rw [(same e member).key, (same e member).place]

/-- A bucket depends on its own elements. -/
theorem Bucket.congr (bucket : t.Bucket i es) (numEntries : t'.numEntries = t.numEntries)
    (allocated : t.allocated ≤ t'.allocated) (entry : SameAt t t' (.entry i))
    (same : ∀ e ∈ es, SameAt t t' e) : t'.Bucket i es where
  linked used := (bucket.linked used).congr fun e member => (same e member).next
  empty unused := by
    rw [entry.data, entry.next]
    exact bucket.empty unused
  own e member := by
    rw [(same e member).data]
    exact bucket.own e member
  known e member := (bucket.known e member).imp_right fun ⟨n, below, eq⟩ =>
    ⟨n, Nat.lt_of_lt_of_le below allocated, eq⟩
  nodup := bucket.nodup
  keys := by
    rw [List.map_congr_left fun e member => (same e member).key]
    exact bucket.keys
  index e member := by
    rw [(same e member).key, entryIndex_congr numEntries]
    exact bucket.index e member

/-- The table stands for a map, and these are the elements of its buckets. -/
structure Represents (t : Table Data) (f : ℤ → Option Data) (elements : ℕ → List Element) :
    Prop where
  bucket : ∀ i < t.numEntries, t.Bucket i (elements i)
  apart : ∀ i < t.numEntries, ∀ j < t.numEntries, ∀ e ∈ elements i, e ∈ elements j → i = j
  freed : ∀ n, n ∈ t.freed ↔ n < t.allocated ∧ ∀ i < t.numEntries, .heap n ∉ elements i
  once : t.freed.Nodup
  lookup : ∀ key, (t.contents (elements (t.entryIndex key))).lookup key = f key

/-- What a change of one bucket leaves as it is.  Memory is freed for exactly the elements that
are no longer there. -/
structure Changes (t t' : Table Data) (i : ℕ) (es es' : List Element) : Prop where
  numEntries : t'.numEntries = t.numEntries
  frame : ∀ e, e ≠ .entry i → e ∉ es → e ≠ .heap t.allocated → SameAt t t' e
  allocated : t'.allocated = t.allocated ∨
    t'.allocated = t.allocated + 1 ∧ .heap t.allocated ∈ es'
  known : ∀ e ∈ es', e ∈ es ∨ e = .entry i ∨ e = .heap t.allocated
  freed : ∃ gone, t'.freed = t.freed ++ gone ∧ gone.Nodup ∧
    ∀ n, n ∈ gone ↔ .heap n ∈ es ∧ .heap n ∉ es'

variable {f : ℤ → Option Data} {elements : ℕ → List Element}

/-- An element that has not been allocated is in no bucket. -/
theorem Represents.lt_allocated (represents : t.Represents f elements) (below : i < t.numEntries)
    {n : ℕ} (member : .heap n ∈ elements i) : n < t.allocated := by
  rcases (represents.bucket i below).known _ member with isEntry | ⟨m, before, same⟩
  · cases isEntry
  · rw [Element.heap.inj same]
    exact before

theorem Represents.entry_mem (represents : t.Represents f elements) {j : ℕ}
    (below : i < t.numEntries) (member : .entry j ∈ elements i) : j = i := by
  rcases (represents.bucket i below).known _ member with same | ⟨n, -, isHeap⟩
  · exact Element.entry.inj same
  · cases isHeap

/-- What is in the changed bucket was there before or is new. -/
theorem Changes.not_mem_other (changes : Changes t t' i (elements i) es')
    (represents : t.Represents f elements) (below : i < t.numEntries) {j : ℕ}
    (other : j < t.numEntries) (differs : j ≠ i) {e : Element} (member : e ∈ es') :
    e ∉ elements j := by
  intro there
  rcases changes.known e member with old | rfl | rfl
  · exact differs (represents.apart j other i below e there old)
  · exact differs (represents.entry_mem other there).symm
  · exact Nat.lt_irrefl _ (represents.lt_allocated other there)

theorem Changes.sameAt_other (changes : Changes t t' i (elements i) es')
    (represents : t.Represents f elements) (below : i < t.numEntries) {j : ℕ}
    (other : j < t.numEntries) (differs : j ≠ i) {e : Element} (member : e ∈ elements j) :
    SameAt t t' e := by
  refine changes.frame e ?_ ?_ ?_
  · rintro rfl
    exact differs (represents.entry_mem other member).symm
  · exact fun here => differs (represents.apart j other i below e member here)
  · rintro rfl
    exact Nat.lt_irrefl _ (represents.lt_allocated other member)

/-- **Freed elements after a change** -/
theorem Changes.mem_freed (changes : Changes t t' i (elements i) es')
    (represents : t.Represents f elements) (below : i < t.numEntries) (n : ℕ) :
    n ∈ t'.freed ↔ n < t'.allocated ∧
      ∀ j < t.numEntries, .heap n ∉ Function.update elements i es' j := by
  obtain ⟨gone, freed, -, isGone⟩ := changes.freed
  have le : t.allocated ≤ t'.allocated := by
    rcases changes.allocated with same | ⟨more, -⟩ <;> omega
  rw [freed, List.mem_append, represents.freed, isGone]
  constructor
  · rintro (⟨before, nowhere⟩ | ⟨here, notHere⟩)
    · refine ⟨Nat.lt_of_lt_of_le before le, fun j other => ?_⟩
      by_cases same : j = i
      · subst same
        rw [Function.update_self]
        intro member
        rcases changes.known _ member with old | isEntry | isNew
        · exact nowhere j below old
        · cases isEntry
        · exact Nat.ne_of_lt before (Element.heap.inj isNew)
      · rw [Function.update_of_ne same]
        exact nowhere j other
    · refine ⟨Nat.lt_of_lt_of_le (represents.lt_allocated below here) le, fun j other => ?_⟩
      by_cases same : j = i
      · subst same
        rw [Function.update_self]
        exact notHere
      · rw [Function.update_of_ne same]
        exact fun there => same (represents.apart j other i below _ there here)
  · rintro ⟨before, nowhere⟩
    have notHere : .heap n ∉ es' := by
      have inBucket := nowhere i below
      rwa [Function.update_self] at inBucket
    by_cases here : .heap n ∈ elements i
    · exact .inr ⟨here, notHere⟩
    refine .inl ⟨?_, fun j other => ?_⟩
    · rcases changes.allocated with same | ⟨more, isNew⟩
      · omega
      · by_contra late
        obtain rfl : n = t.allocated := by omega
        exact notHere isNew
    · by_cases same : j = i
      · exact same ▸ here
      · have there := nowhere j other
        rwa [Function.update_of_ne same] at there

/-- **A change of the value of one key in its bucket is a change of the map.** -/
theorem Represents.change {key : ℤ} {value : Option Data} (represents : t.Represents f elements)
    (changes : Changes t t' (t.entryIndex key) (elements (t.entryIndex key)) es')
    (bucket : t'.Bucket (t.entryIndex key) es')
    (lookup : ∀ other, (t'.contents es').lookup other = Function.update
      (fun k => (t.contents (elements (t.entryIndex key))).lookup k) key value other) :
    t'.Represents (Function.update f key value)
      (Function.update elements (t.entryIndex key) es') := by
  have below := t.entryIndex_lt key
  refine ⟨fun j other => ?_, fun j first k second e inFirst inSecond => ?_, ?_, ?_, fun other => ?_⟩
  · rw [changes.numEntries] at other
    by_cases same : j = t.entryIndex key
    · subst same
      rw [Function.update_self]
      exact bucket
    · rw [Function.update_of_ne same]
      refine (represents.bucket j other).congr changes.numEntries ?_ ?_ fun e member =>
        changes.sameAt_other represents below other same member
      · rcases changes.allocated with eq | ⟨more, -⟩ <;> omega
      · refine changes.frame _ (fun eq => same (Element.entry.inj eq)) (fun here => ?_) nofun
        exact same (represents.entry_mem below here)
  · rw [changes.numEntries] at first second
    by_cases isFirst : j = t.entryIndex key
    · subst isFirst
      by_contra differs
      rw [Function.update_self] at inFirst
      rw [Function.update_of_ne (Ne.symm differs)] at inSecond
      exact changes.not_mem_other represents below second (Ne.symm differs) inFirst inSecond
    rw [Function.update_of_ne isFirst] at inFirst
    by_cases isSecond : k = t.entryIndex key
    · subst isSecond
      rw [Function.update_self] at inSecond
      exact absurd inFirst (changes.not_mem_other represents below first isFirst inSecond)
    · rw [Function.update_of_ne isSecond] at inSecond
      exact represents.apart j first k second e inFirst inSecond
  · intro n
    rw [changes.numEntries]
    exact changes.mem_freed represents below n
  · obtain ⟨gone, freed, nodup, isGone⟩ := changes.freed
    rw [freed]
    refine List.nodup_append.mpr ⟨represents.once, nodup, fun n old m new => ?_⟩
    rintro rfl
    exact ((represents.freed n).mp old).2 _ below ((isGone n).mp new).1
  · rw [entryIndex_congr changes.numEntries]
    by_cases same : t.entryIndex other = t.entryIndex key
    · rw [same, Function.update_self, lookup]
      by_cases isKey : other = key
      · subst isKey
        rw [Function.update_self, Function.update_self]
      · rw [Function.update_of_ne isKey, Function.update_of_ne isKey, ← same]
        exact represents.lookup other
    · have isOther : other ≠ key := fun eq => same (congrArg t.entryIndex eq)
      rw [Function.update_of_ne same, Function.update_of_ne isOther, ← represents.lookup other]
      refine congrArg (fun pairs => List.lookup other pairs) (contents_congr fun e member => ?_)
      exact changes.sameAt_other represents below (t.entryIndex_lt other) same member

/-! ## What the operations change -/

@[simp]
theorem contents_append (t : Table Data) (front back : List Element) :
    t.contents (front ++ back) = t.contents front ++ t.contents back :=
  List.map_append

@[simp]
theorem contents_cons (t : Table Data) (e : Element) (es : List Element) :
    t.contents (e :: es) = (t.key e, t.place e) :: t.contents es := rfl

@[simp]
theorem contents_nil (t : Table Data) : t.contents [] = [] := rfl

/-- The bucket of a key -/
theorem Represents.bucketOf (represents : t.Represents f elements) (key : ℤ) :
    t.Bucket (t.entryIndex key) (elements (t.entryIndex key)) :=
  represents.bucket _ (t.entryIndex_lt key)

/-- **New data for a key** -/
theorem Represents.write (represents : t.Represents f elements) {x : Element}
    {front back : List Element} (data : Data)
    (split : elements (t.entryIndex key) = front ++ x :: back) (found : t.key x = key) :
    (t.write x data).Represents (Function.update f key (some data))
      (Function.update elements (t.entryIndex key) (front ++ x :: back)) := by
  have bucket := represents.bucketOf key
  rw [split] at bucket
  have written : t.write x data = { t with place := Function.update t.place x data } := by
    rw [Table.write, bucket.own x (by simp)]
  have apart := List.nodup_append.mp bucket.nodup
  have sameAt : ∀ e, e ≠ x → SameAt t (t.write x data) e := by
    intro e other
    rw [written]
    exact ⟨rfl, rfl, rfl, Function.update_of_ne other _ _⟩
  refine represents.change ⟨?_, ?_, ?_, ?_, [], ?_, List.nodup_nil, ?_⟩ ?_ fun other => ?_
  · rw [written]
  · intro e _ notIn _
    refine sameAt e ?_
    rintro rfl
    exact notIn (by simp [split])
  · rw [written]
    exact .inl rfl
  · exact fun e member => .inl (by rwa [split])
  · rw [written, List.append_nil]
  · exact fun n => ⟨nofun, fun gone => absurd (split ▸ gone.1) gone.2⟩
  · rw [written]
    exact ⟨bucket.linked, bucket.empty, bucket.own, bucket.known, bucket.nodup, bucket.keys,
      bucket.index⟩
  · have frontSame : (t.write x data).contents front = t.contents front :=
      contents_congr fun e member => sameAt e fun eq =>
        apart.2.2 e member x List.mem_cons_self eq
    have backSame : (t.write x data).contents back = t.contents back :=
      contents_congr fun e member => sameAt e fun eq =>
        (List.nodup_cons.mp apart.2.1).1 (eq ▸ member)
    have here : (t.write x data).contents (front ++ x :: back) =
        t.contents front ++ (key, data) :: t.contents back := by
      rw [contents_append, contents_cons, frontSame, backSame, written, found]
      simp
    have distinct := bucket.distinct
    rw [here, split]
    rw [contents_append, contents_cons, found] at distinct ⊢
    exact lookup_replace distinct data other

/-- **A key for an empty bucket** -/
theorem Represents.fill (represents : t.Represents f elements) (data : Data)
    (unused : elements (t.entryIndex key) = []) :
    (t.fill (t.entryIndex key) key data).Represents (Function.update f key (some data))
      (Function.update elements (t.entryIndex key) [.entry (t.entryIndex key)]) := by
  have bucket := represents.bucketOf key
  rw [unused] at bucket
  have noNext := (bucket.empty rfl).2
  refine represents.change ⟨rfl, ?_, .inl rfl, ?_, [], ?_, List.nodup_nil, ?_⟩ ?_ fun other => ?_
  · intro e notEntry _ _
    exact ⟨Function.update_of_ne notEntry _ _, rfl, Function.update_of_ne notEntry _ _,
      Function.update_of_ne notEntry _ _⟩
  · exact fun e member => .inr (.inl (List.mem_singleton.mp member))
  · exact (List.append_nil _).symm
  · exact fun n => ⟨nofun, fun gone => by simp [unused] at gone⟩
  · refine ⟨fun _ => ⟨rfl, noNext⟩, nofun, fun e member => ?_, fun e member => ?_,
      List.nodup_singleton _, List.nodup_singleton _, fun e member => ?_⟩
    · rw [List.mem_singleton.mp member]
      exact Function.update_self ..
    · exact .inl (List.mem_singleton.mp member)
    · rw [List.mem_singleton.mp member]
      exact congrArg t.entryIndex (Function.update_self ..)
  · rw [unused]
    have absent : key ∉ (List.map Prod.fst ([] : List (ℤ × Data))) := List.not_mem_nil
    simpa [Table.fill] using lookup_insert absent data other

theorem Bucket.append {es front : List Element} {last : Element} (data : Data)
    (bucket : t.Bucket (t.entryIndex key) es) (split : es = front ++ [last])
    (fresh : .heap t.allocated ∉ es) (absent : key ∉ es.map t.key) :
    (t.append last key data).Bucket (t.entryIndex key) (es ++ [.heap t.allocated]) := by
  have inBucket : last ∈ es := by simp [split]
  have notLast : .heap t.allocated ≠ last := by
    rintro rfl
    exact fresh inBucket
  have sameKey : ∀ e ∈ es, (t.append last key data).key e = t.key e :=
    fun e member => Function.update_of_ne (ne_of_mem_of_not_mem member fresh) _ _
  constructor
  · intro _
    have cleared : Linked (Function.update t.next (.heap t.allocated) none)
        (some (.entry (t.entryIndex key))) (front ++ last :: []) := by
      rw [← split]
      exact (bucket.linked (List.ne_nil_of_mem inBucket)).congr fun e member =>
        Function.update_of_ne (ne_of_mem_of_not_mem member fresh) _ _
    have new : Linked (Function.update t.next (.heap t.allocated) none)
        (some (.heap t.allocated)) [.heap t.allocated] := ⟨rfl, Function.update_self ..⟩
    have notFront : last ∉ front := by
      have nodup := bucket.nodup
      rw [split, List.nodup_append] at nodup
      exact fun member => nodup.2.2 _ member _ List.mem_cons_self rfl
    rw [split, List.append_assoc]
    exact cleared.splice new notFront (by simpa using notLast.symm)
  · intro empty
    simp at empty
  · intro e member
    rcases List.mem_append.mp member with old | new
    · rw [← bucket.own e old]
      exact Function.update_of_ne (ne_of_mem_of_not_mem old fresh) _ _
    · rw [List.mem_singleton.mp new]
      exact Function.update_self ..
  · intro e member
    rcases List.mem_append.mp member with old | new
    · exact (bucket.known e old).imp_right fun ⟨n, below, eq⟩ => ⟨n, Nat.lt_succ_of_lt below, eq⟩
    · exact .inr ⟨t.allocated, Nat.lt_succ_self _, List.mem_singleton.mp new⟩
  · refine List.nodup_append.mpr ⟨bucket.nodup, List.nodup_singleton _, fun e old x new => ?_⟩
    rw [List.mem_singleton.mp new]
    exact ne_of_mem_of_not_mem old fresh
  · rw [List.map_append, List.map_congr_left sameKey]
    refine List.nodup_append.mpr ⟨bucket.keys, List.nodup_singleton _, fun k old x new => ?_⟩
    have isKey : x = key := (List.mem_singleton.mp new).trans (Function.update_self ..)
    rw [isKey]
    exact ne_of_mem_of_not_mem old absent
  · intro e member
    rcases List.mem_append.mp member with old | new
    · rw [sameKey e old]
      exact bucket.index e old
    · rw [List.mem_singleton.mp new]
      exact congrArg t.entryIndex (Function.update_self ..)

theorem contents_append_new {es : List Element} {last : Element} (data : Data)
    (fresh : .heap t.allocated ∉ es) :
    (t.append last key data).contents (es ++ [.heap t.allocated]) =
      t.contents es ++ [(key, data)] := by
  have old : (t.append last key data).contents es = t.contents es := by
    refine List.map_congr_left fun e member => ?_
    have other := ne_of_mem_of_not_mem member fresh
    exact congrArg₂ Prod.mk (Function.update_of_ne other _ _) (Function.update_of_ne other _ _)
  have new : (t.append last key data).contents [.heap t.allocated] = [(key, data)] := by
    simp [contents, Table.append]
  rw [contents_append, old, new]

/-- **A key that is appended to a chain** -/
theorem Represents.append (represents : t.Represents f elements) {front : List Element}
    {last : Element} (data : Data) (split : elements (t.entryIndex key) = front ++ [last])
    (absent : key ∉ (elements (t.entryIndex key)).map t.key) :
    (t.append last key data).Represents (Function.update f key (some data))
      (Function.update elements (t.entryIndex key)
        (elements (t.entryIndex key) ++ [.heap t.allocated])) := by
  have fresh : .heap t.allocated ∉ elements (t.entryIndex key) := fun member =>
    Nat.lt_irrefl _ (represents.lt_allocated (t.entryIndex_lt key) member)
  refine represents.change ⟨rfl, ?_, .inr ⟨rfl, by simp⟩, ?_, [], ?_, List.nodup_nil, ?_⟩
    ((represents.bucketOf key).append data split fresh absent) fun other => ?_
  · intro e _ notIn notNew
    have other : e ≠ last := by
      rintro rfl
      exact notIn (by simp [split])
    refine ⟨Function.update_of_ne notNew _ _, ?_, Function.update_of_ne notNew _ _,
      Function.update_of_ne notNew _ _⟩
    exact (Function.update_of_ne other _ _).trans (Function.update_of_ne notNew _ _)
  · intro e member
    rcases List.mem_append.mp member with old | new
    · exact .inl old
    · exact .inr (.inr (List.mem_singleton.mp new))
  · exact (List.append_nil _).symm
  · exact fun n => ⟨nofun, fun gone => absurd (List.mem_append_left _ gone.1) gone.2⟩
  · rw [contents_append_new data fresh]
    refine lookup_insert ?_ data other
    rwa [map_fst_contents]

section CopyToEntry

variable {n : ℕ} {rest : List Element}
  (bucket : t.Bucket i (.entry i :: .heap n :: rest))

include bucket

theorem Bucket.entry_notMem_rest : .entry i ∉ rest := fun member =>
  (List.nodup_cons.mp bucket.nodup).1 (List.mem_cons_of_mem _ member)

/-- Nothing changes behind the element that is copied. -/
theorem Bucket.sameAt_copyToEntry {e : Element} (member : e ∈ rest) :
    SameAt t ((t.copyToEntry i (.heap n)).free (.heap n)) e := by
  have other := ne_of_mem_of_not_mem member bucket.entry_notMem_rest
  exact ⟨Function.update_of_ne other _ _, Function.update_of_ne other _ _,
    Function.update_of_ne other _ _, Function.update_of_ne other _ _⟩

theorem Bucket.contents_copyToEntry :
    ((t.copyToEntry i (.heap n)).free (.heap n)).contents (.entry i :: rest) =
      t.contents (.heap n :: rest) := by
  rw [contents_cons, contents_cons]
  refine congrArg₂ _ (by simp [Table.copyToEntry, Table.free])
    (contents_congr fun e member => bucket.sameAt_copyToEntry member)

theorem Bucket.copyToEntry :
    ((t.copyToEntry i (.heap n)).free (.heap n)).Bucket i (.entry i :: rest) := by
  have isKey : ((t.copyToEntry i (.heap n)).free (.heap n)).key (.entry i) = t.key (.heap n) :=
    Function.update_self ..
  constructor
  · intro _
    have tail : Linked t.next (t.next (.heap n)) rest :=
      (bucket.linked (List.cons_ne_nil _ _)).2.2
    refine ⟨rfl, ?_⟩
    show Linked (Function.update t.next _ _) (Function.update t.next _ _ _) rest
    rw [Function.update_self]
    exact tail.congr fun e member => (bucket.sameAt_copyToEntry member).next
  · intro empty
    cases empty
  · intro e member
    rcases List.mem_cons.mp member with rfl | later
    · exact Function.update_self ..
    · rw [← bucket.own e (by simp [later])]
      exact (bucket.sameAt_copyToEntry later).data
  · intro e member
    rcases List.mem_cons.mp member with first | later
    · exact .inl first
    · exact bucket.known e (by simp [later])
  · have nodupTail := (List.nodup_cons.mp bucket.nodup).2
    exact List.nodup_cons.mpr ⟨bucket.entry_notMem_rest, (List.nodup_cons.mp nodupTail).2⟩
  · have keysTail : ((.heap n :: rest).map t.key).Nodup := (List.nodup_cons.mp bucket.keys).2
    rw [List.map_cons, isKey,
      List.map_congr_left fun e member => (bucket.sameAt_copyToEntry member).key]
    exact keysTail
  · intro e member
    rcases List.mem_cons.mp member with rfl | later
    · exact (congrArg t.entryIndex isKey).trans (bucket.index (.heap n) (by simp))
    · exact (congrArg t.entryIndex (bucket.sameAt_copyToEntry later).key).trans
        (bucket.index e (by simp [later]))

end CopyToEntry

/-- **A key that is deleted from the first element, with a successor** -/
theorem Represents.copyToEntry (represents : t.Represents f elements) {n : ℕ}
    {rest : List Element}
    (split : elements (t.entryIndex key) = .entry (t.entryIndex key) :: .heap n :: rest)
    (found : t.key (.entry (t.entryIndex key)) = key) :
    ((t.copyToEntry (t.entryIndex key) (.heap n)).free (.heap n)).Represents
      (Function.update f key none)
      (Function.update elements (t.entryIndex key) (.entry (t.entryIndex key) :: rest)) := by
  have bucket := represents.bucketOf key
  rw [split] at bucket
  have nodupTail := (List.nodup_cons.mp bucket.nodup).2
  refine represents.change ⟨rfl, ?_, .inl rfl, ?_, [n], rfl, List.nodup_singleton _, ?_⟩
    bucket.copyToEntry fun k => ?_
  · intro e notIn _ _
    exact ⟨Function.update_of_ne notIn _ _, Function.update_of_ne notIn _ _,
      Function.update_of_ne notIn _ _, Function.update_of_ne notIn _ _⟩
  · intro e member
    rcases List.mem_cons.mp member with first | later
    · exact .inr (.inl first)
    · exact .inl (by simp [split, later])
  · intro m
    rw [split, List.mem_singleton]
    constructor
    · rintro rfl
      exact ⟨by simp, by simpa using (List.nodup_cons.mp nodupTail).1⟩
    · rintro ⟨old, gone⟩
      rcases List.mem_cons.mp old with isEntry | old
      · cases isEntry
      · rcases List.mem_cons.mp old with same | later
        · exact Element.heap.inj same
        · exact absurd (List.mem_cons_of_mem _ later) gone
  · have distinct := bucket.distinct
    rw [contents_cons, found] at distinct
    rw [bucket.contents_copyToEntry, split, contents_cons t (.entry (t.entryIndex key)), found]
    exact @lookup_remove _ _ _ _ _ [] _ distinct k

/-- **A key that is deleted from the first element, without a successor** -/
theorem Represents.clear (represents : t.Represents f elements)
    (only : elements (t.entryIndex key) = [.entry (t.entryIndex key)])
    (found : t.key (.entry (t.entryIndex key)) = key) :
    (t.clear (t.entryIndex key)).Represents (Function.update f key none)
      (Function.update elements (t.entryIndex key) []) := by
  have bucket := represents.bucketOf key
  rw [only] at bucket
  have noNext : t.next (.entry (t.entryIndex key)) = none := (bucket.linked (by simp)).2
  refine represents.change ⟨rfl, ?_, .inl rfl, nofun, [], ?_, List.nodup_nil, ?_⟩ ?_ fun k => ?_
  · intro e notEntry _ _
    exact ⟨rfl, rfl, Function.update_of_ne notEntry _ _, rfl⟩
  · exact (List.append_nil _).symm
  · exact fun n => ⟨nofun, fun gone => by simp [only] at gone⟩
  · exact ⟨fun used => absurd rfl used, fun _ => ⟨Function.update_self .., noNext⟩, nofun, nofun,
      List.nodup_nil, List.nodup_nil, nofun⟩
  · have distinct := bucket.distinct
    rw [only]
    rw [contents_cons, found] at distinct ⊢
    exact @lookup_remove _ _ _ _ _ [] _ distinct k

section Unlink

variable {front back : List Element} {before : Element} {n : ℕ}

theorem sublist_unlink (e : Element) :
    (front ++ before :: back).Sublist (front ++ before :: e :: back) :=
  (List.Sublist.refl front).append ((List.sublist_cons_self _ back).cons_cons before)

theorem Bucket.unlink (bucket : t.Bucket i (front ++ before :: .heap n :: back)) :
    ((t.unlink before (.heap n)).free (.heap n)).Bucket i (front ++ before :: back) := by
  have sublist := @sublist_unlink front back before (.heap n)
  obtain ⟨-, nodupTail, apart⟩ := List.nodup_append.mp bucket.nodup
  have beforeNotBack : before ∉ back := fun member =>
    (List.nodup_cons.mp nodupTail).1 (List.mem_cons_of_mem _ member)
  have beforeNotFront : before ∉ front := fun member => apart _ member _ List.mem_cons_self rfl
  constructor
  · intro _
    have linked := bucket.linked (by simp)
    have whole : Linked t.next (some (.entry i)) ((front ++ [before]) ++ .heap n :: back) := by
      rw [List.append_assoc]
      exact linked
    have tail : Linked t.next (t.next (.heap n)) back := whole.walk.2
    exact linked.splice tail beforeNotFront beforeNotBack
  · intro empty
    simp at empty
  · exact fun e member => bucket.own e (sublist.subset member)
  · exact fun e member => bucket.known e (sublist.subset member)
  · exact bucket.nodup.sublist sublist
  · exact bucket.keys.sublist (sublist.map t.key)
  · exact fun e member => bucket.index e (sublist.subset member)

theorem Bucket.notMem_unlink (bucket : t.Bucket i (front ++ before :: .heap n :: back)) :
    .heap n ∉ front ++ before :: back := by
  have nodup : ((front ++ [before]) ++ .heap n :: back).Nodup := by
    rw [List.append_assoc]
    exact bucket.nodup
  have notIn := (List.nodup_middle.mp nodup).notMem
  rwa [List.append_assoc] at notIn

/-- **A key that is deleted from a chain** -/
theorem Represents.unlink (represents : t.Represents f elements)
    (split : elements (t.entryIndex key) = front ++ before :: .heap n :: back)
    (found : t.key (.heap n) = key) :
    ((t.unlink before (.heap n)).free (.heap n)).Represents (Function.update f key none)
      (Function.update elements (t.entryIndex key) (front ++ before :: back)) := by
  have bucket := represents.bucketOf key
  rw [split] at bucket
  refine represents.change ⟨rfl, ?_, .inl rfl, ?_, [n], rfl, List.nodup_singleton _, ?_⟩
    bucket.unlink fun k => ?_
  · intro e _ notIn _
    have other : e ≠ before := by
      rintro rfl
      exact notIn (by simp [split])
    exact ⟨rfl, Function.update_of_ne other _ _, rfl, rfl⟩
  · exact fun e member => .inl (split ▸ (sublist_unlink _).subset member)
  · intro m
    rw [split, List.mem_singleton]
    constructor
    · rintro rfl
      exact ⟨by simp, bucket.notMem_unlink⟩
    · rintro ⟨old, gone⟩
      by_contra differs
      refine gone ?_
      simp only [List.mem_append, List.mem_cons, Element.heap.injEq, differs, false_or] at old ⊢
      exact old
  · have distinct := bucket.distinct
    have parts : t.contents (front ++ before :: .heap n :: back) =
        (t.contents front ++ [(t.key before, t.place before)]) ++
          (key, t.place (.heap n)) :: t.contents back := by
      simp [found]
    have here : ((t.unlink before (.heap n)).free (.heap n)).contents (front ++ before :: back) =
        (t.contents front ++ [(t.key before, t.place before)]) ++ t.contents back := by
      show t.contents (front ++ before :: back) = _
      simp
    rw [here, split, parts]
    rw [parts] at distinct
    exact lookup_remove distinct k

end Unlink

/-! ## The operations refine those of a map -/

theorem Represents.isSome_of_mem (represents : t.Represents f elements) {e : Element}
    (member : e ∈ elements (t.entryIndex key)) (found : t.key e = key) :
    (f key).isSome = true := by
  rw [← represents.lookup key, List.lookup_isSome_iff]
  exact ⟨(t.key e, t.place e), List.mem_map_of_mem member, by simp [found]⟩

theorem Represents.eq_none_of_notMem (represents : t.Represents f elements)
    (absent : key ∉ (elements (t.entryIndex key)).map t.key) : f key = none := by
  rw [← represents.lookup key]
  refine lookup_of_notMem ?_
  rwa [map_fst_contents]

/-- **`ABTU_hashtable_get` finds the value of a key.** -/
theorem Represents.get_eq (represents : t.Represents f elements) (key : ℤ) :
    t.get key = some (f key, (f key).isSome) := by
  have bucket := represents.bucketOf key
  have value := represents.lookup key
  unfold get
  split
  · next unused =>
      rw [bucket.eq_nil unused] at value
      rw [← value]
      rfl
  · next place used =>
      obtain ⟨rest, cons⟩ := bucket.eq_cons used
      rw [cons] at bucket value
      rw [getLoop_eq (bucket.linked (List.cons_ne_nil _ _)) bucket.own bucket.length_le, value]

/-- **`ABTU_hashtable_set` sets the value of a key, or fails for lack of memory.** -/
theorem Represents.set_eq (represents : t.Represents f elements) (allocates : Bool) (key : ℤ)
    (data : Data) (overwritten : Flag) :
    (∃ t' elements', t.set allocates key data overwritten =
        some (t', .success, overwritten.report (f key).isSome) ∧
      t'.Represents (Function.update f key (some data)) elements') ∨
    allocates = false ∧ f key = none ∧
      t.set allocates key data overwritten = some (t, .mem, overwritten) := by
  have bucket := represents.bucketOf key
  unfold set
  split
  · next unused =>
      have empty := bucket.eq_nil unused
      have absent : f key = none := represents.eq_none_of_notMem (by simp [empty])
      exact .inl ⟨_, _, by rw [absent]; rfl, represents.fill data empty⟩
  · next place used =>
      obtain ⟨rest, cons⟩ := bucket.eq_cons used
      rw [cons] at bucket
      rcases setLoop_eq key allocates data overwritten (bucket.linked (List.cons_ne_nil _ _))
          bucket.length_le with
        ⟨front, x, back, split, found, written⟩ | ⟨absent, front, last, split, appended⟩
      · have whole := cons.trans split
        have present := represents.isSome_of_mem (e := x) (by simp [whole]) found
        exact .inl ⟨_, _, by rw [written, present], represents.write data whole found⟩
      · have whole := cons.trans split
        rw [← cons] at absent
        have noValue := represents.eq_none_of_notMem absent
        cases allocates with
        | true => exact .inl ⟨_, _, by rw [appended, noValue]; rfl,
            represents.append data whole absent⟩
        | false => exact .inr ⟨rfl, noValue, appended⟩

/-- Nothing changes where a key is deleted that has no value. -/
theorem Represents.of_absent (represents : t.Represents f elements) (absent : f key = none) :
    t.Represents (Function.update f key none) elements := by
  rw [← absent, Function.update_eq_self]
  exact represents

/-- **`ABTU_hashtable_delete` deletes the value of a key.**  It leaves the flag as it is where the
bucket has one element, with another key. -/
theorem Represents.delete_eq (represents : t.Represents f elements) (key : ℤ) (deleted : Flag) :
    ∃ t' elements', t'.Represents (Function.update f key none) elements' ∧
      (¬ t.OnlyOther key ∧ t.delete key deleted = some (t', deleted.report (f key).isSome) ∨
        t.OnlyOther key ∧ f key = none ∧ t.delete key deleted = some (t', deleted)) := by
  have bucket := represents.bucketOf key
  unfold delete
  dsimp only
  split
  · next unused =>
      have absent : f key = none := represents.eq_none_of_notMem (by simp [bucket.eq_nil unused])
      refine ⟨t, elements, represents.of_absent absent, .inl ⟨fun only => only.1 unused, ?_⟩⟩
      rw [absent]
      rfl
  · next place used =>
      obtain ⟨rest, cons⟩ := bucket.eq_cons used
      by_cases found : t.key (.entry (t.entryIndex key)) = key
      · have present := represents.isSome_of_mem (by simp [cons]) found
        rw [if_pos found]
        rw [cons] at bucket
        have chain := bucket.linked (List.cons_ne_nil _ _)
        cases rest with
        | nil =>
            have noNext : t.next (.entry (t.entryIndex key)) = none := chain.2
            refine ⟨_, _, represents.clear cons found, .inl ⟨fun only => only.2.1 found, ?_⟩⟩
            rw [noNext, present]
        | cons e rest =>
            rcases bucket.known e (by simp) with rfl | ⟨n, -, rfl⟩
            · exact absurd List.mem_cons_self (List.nodup_cons.mp bucket.nodup).1
            have next : t.next (.entry (t.entryIndex key)) = some (.heap n) := chain.2.1
            refine ⟨_, _, represents.copyToEntry cons found,
              .inl ⟨fun only => only.2.1 found, ?_⟩⟩
            rw [next, present]
      · rw [if_neg found]
        have bucketCons := bucket
        rw [cons] at bucketCons
        have chain : Linked t.next (t.next (.entry (t.entryIndex key))) rest :=
          (bucketCons.linked (List.cons_ne_nil _ _)).2
        rcases deleteLoop_eq key deleted chain bucketCons.length_le with
          ⟨front, before, x, back, split, here, removed⟩ | ⟨absent, kept⟩
        · have whole := cons.trans split
          have present := represents.isSome_of_mem (e := x) (by simp [whole]) here
          rcases bucket.known x (by simp [whole]) with rfl | ⟨n, -, rfl⟩
          · exact absurd here found
          have hasNext : t.next (.entry (t.entryIndex key)) ≠ none := by
            intro noNext
            rw [noNext] at chain
            have isNil : rest = [] := chain.unique rfl
            rw [isNil] at split
            have length := congrArg List.length split
            simp only [List.length_cons, List.length_append, List.length_nil] at length
            omega
          refine ⟨_, _, represents.unlink whole here, .inl ⟨fun only => hasNext only.2.2, ?_⟩⟩
          rw [removed, present]
        · have noValue : f key = none := by
            refine represents.eq_none_of_notMem ?_
            rw [cons, List.map_cons, List.mem_cons, not_or]
            exact ⟨Ne.symm found, absent⟩
          refine ⟨t, elements, represents.of_absent noValue, ?_⟩
          by_cases isNil : rest = []
          · have noNext : t.next (.entry (t.entryIndex key)) = none := by
              rw [isNil] at chain
              exact chain
            rw [if_pos isNil] at kept
            exact .inr ⟨⟨by simp [used], found, noNext⟩, noValue, kept⟩
          · have hasNext : t.next (.entry (t.entryIndex key)) ≠ none := by
              intro noNext
              rw [noNext] at chain
              exact isNil (chain.unique rfl)
            rw [if_neg isNil] at kept
            refine .inl ⟨fun only => hasNext only.2.2, ?_⟩
            rw [kept, noValue]
            rfl

/-- **An operation is that of the map if and only if no flag is lost.** -/
theorem Represents.perform (represents : t.Represents f elements) (op : Op Data) :
    ∃ t' result f' elements', t.perform op = some (t', result) ∧ t'.Represents f' elements' ∧
      (op.Reported t → MapStep f op result f') ∧
        ∀ g, MapStep f op result g → op.Reported t ∧ g = f' := by
  cases op with
  | get key found =>
      refine ⟨t, _, f, elements, by rw [Table.perform, represents.get_eq]; rfl, represents,
        fun _ => .get key found, fun g step => ?_⟩
      cases step
      exact ⟨trivial, rfl⟩
  | set key data overwritten allocates =>
      rcases represents.set_eq allocates key data overwritten with
        ⟨t', elements', set, represents'⟩ | ⟨rfl, absent, set⟩
      · refine ⟨t', _, _, elements', by rw [Table.perform, set]; rfl, represents',
          fun _ => .set key data overwritten allocates, fun g step => ?_⟩
        cases step
        exact ⟨trivial, rfl⟩
      · refine ⟨t, _, f, elements, by rw [Table.perform, set]; rfl, represents,
          fun _ => .setFails key data overwritten absent, fun g step => ?_⟩
        cases step
        exact ⟨trivial, rfl⟩
  | delete key deleted =>
      obtain ⟨t', elements', represents', cases⟩ := represents.delete_eq key deleted
      rcases cases with ⟨reported, delete⟩ | ⟨only, absent, delete⟩
      · refine ⟨t', _, _, elements', by rw [Table.perform, delete]; rfl, represents',
          fun _ => .delete key deleted, fun g step => ?_⟩
        cases step
        exact ⟨fun _ => reported, rfl⟩
      · refine ⟨t', _, _, elements', by rw [Table.perform, delete]; rfl, represents',
          fun reported => ?_, fun g step => ?_⟩
        · have kept : deleted = deleted.report (f key).isSome := by
            rw [absent]
            match deleted, reported with
            | none, _ => rfl
            | some false, _ => rfl
            | some true, reported => exact absurd only (reported rfl)
          have step := MapStep.delete (f := f) key deleted
          rwa [← kept] at step
        · obtain ⟨same, next⟩ := step.of_delete
          refine ⟨fun isTrue => ?_, next⟩
          have kept := Result.deleted.inj same
          rw [isTrue, absent] at kept
          cases kept

/-- A new table stands for the empty map. -/
theorem represents_create (numEntries dataSize : ℕ) (positive : 0 < numEntries)
    (fits : Fits numEntries dataSize) (zero : Data) :
    (create numEntries dataSize positive fits zero).Represents (fun _ => none) fun _ => [] where
  bucket _ _ := ⟨fun used => absurd rfl used, fun _ => ⟨rfl, rfl⟩, nofun, nofun, List.nodup_nil,
    List.nodup_nil, nofun⟩
  apart _ _ _ _ _ member := absurd member List.not_mem_nil
  freed n := ⟨nofun, fun before => absurd before.1 (Nat.not_lt_zero n)⟩
  once := List.nodup_nil
  lookup _ := rfl

end Table

end ArgobotsReduction.Utilities.Hashtable
