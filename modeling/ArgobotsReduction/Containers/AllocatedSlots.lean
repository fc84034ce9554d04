import Mathlib.Logic.Function.Basic

/-!
# Tables of slots that are reused

A table has a list of slots for every bucket, and the bucket of a key is its hash.  A
slot has a key and a value, and it is empty when its key is the null key.  A key takes
the first empty slot of its bucket or a new one, and its slot is emptied when the key is
removed.

As long as a key that is put in the table is not there yet, a table is a partial
function: what is found of a key is what it has been given last
(`Slots.find_reuse`, `Slots.find_clear`), whatever the hash is
(`SlotTable.lookup_update`).
-/

set_option autoImplicit false

namespace Containers

universe u v w

variable {K : Type u} {V : Type v} [DecidableEq K]

/-! ## The slots of a bucket -/

namespace Slots

/-- Give the first empty slot to a key. -/
def reuse (null key : K) (value : V) : List (K × V) → Option (List (K × V))
  | [] => none
  | slot :: rest =>
      if slot.1 = null then some ((key, value) :: rest)
      else (reuse null key value rest).map (slot :: ·)

/-- Empty the slot of a key. -/
def clear (null key : K) : List (K × V) → Option (List (K × V))
  | [] => none
  | slot :: rest =>
      if slot.1 = key then some ((null, slot.2) :: rest)
      else (clear null key rest).map (slot :: ·)

/-- The value in the slot of a key. -/
def find (key : K) : List (K × V) → Option V
  | [] => none
  | slot :: rest => if slot.1 = key then some slot.2 else find key rest

/-- No key has two slots. -/
def Distinct (null : K) (slots : List (K × V)) : Prop :=
  slots.Pairwise fun first second => first.1 = null ∨ first.1 ≠ second.1

variable {null key other : K} {value : V} {slots slots' : List (K × V)}

theorem find_eq_none : find key slots = none ↔ ∀ slot ∈ slots, slot.1 ≠ key := by
  induction slots with
  | nil => simp [find]
  | cons slot rest ih =>
      rw [find, List.forall_mem_cons]
      split
      next here => simp [here]
      next elsewhere => simp [elsewhere, ih]

theorem find_cons_of_ne {slot : K × V} (elsewhere : slot.1 ≠ key) :
    find key (slot :: slots) = find key slots := if_neg elsewhere

/-- A slot that has been given to a key. -/
theorem mem_reuse (reused : reuse null key value slots = some slots') {slot : K × V}
    (member : slot ∈ slots') : slot = (key, value) ∨ slot ∈ slots := by
  induction slots generalizing slots' with
  | nil => cases reused
  | cons first rest ih =>
      rw [reuse] at reused
      split at reused
      next empty =>
        obtain rfl := Option.some.inj reused
        rcases List.mem_cons.mp member with new | old
        · exact .inl new
        · exact .inr (List.mem_cons_of_mem _ old)
      next taken =>
        obtain ⟨rest', inner, rfl⟩ := Option.map_eq_some_iff.mp reused
        rcases List.mem_cons.mp member with rfl | later
        · exact .inr List.mem_cons_self
        · exact (ih inner later).imp_right (List.mem_cons_of_mem _)

/-- **What is found after a slot has been given to a key.** -/
theorem find_reuse (reused : reuse null key value slots = some slots')
    (absent : find key slots = none) (nonnull : other ≠ null) :
    find other slots' = if key = other then some value else find other slots := by
  induction slots generalizing slots' with
  | nil => cases reused
  | cons slot rest ih =>
      rw [reuse] at reused
      split at reused
      next empty =>
        obtain rfl := Option.some.inj reused
        rw [find]
        split
        · rfl
        · rw [find_cons_of_ne (empty ▸ nonnull.symm)]
      next taken =>
        obtain ⟨rest', inner, rfl⟩ := Option.map_eq_some_iff.mp reused
        have elsewhere : slot.1 ≠ key := find_eq_none.mp absent slot List.mem_cons_self
        have found := ih inner (by rwa [find_cons_of_ne elsewhere] at absent)
        rw [find, find, found]
        split
        next here =>
          rw [if_neg fun same => elsewhere (here.trans same.symm)]
        next => rfl

theorem Distinct.cons (distinct : Distinct null slots) (absent : find key slots = none) :
    Distinct null ((key, value) :: slots) :=
  List.pairwise_cons.mpr
    ⟨fun slot member => .inr (find_eq_none.mp absent slot member).symm, distinct⟩

theorem Distinct.reuse (distinct : Distinct null slots) (absent : find key slots = none)
    (reused : reuse null key value slots = some slots') : Distinct null slots' := by
  induction slots generalizing slots' with
  | nil => cases reused
  | cons slot rest ih =>
      obtain ⟨apart, later⟩ := List.pairwise_cons.mp distinct
      have elsewhere : slot.1 ≠ key := find_eq_none.mp absent slot List.mem_cons_self
      rw [find_cons_of_ne elsewhere] at absent
      rw [Slots.reuse] at reused
      split at reused
      next empty =>
        obtain rfl := Option.some.inj reused
        exact Distinct.cons later absent
      next taken =>
        obtain ⟨rest', inner, rfl⟩ := Option.map_eq_some_iff.mp reused
        refine List.pairwise_cons.mpr ⟨fun s member => ?_, ih later absent inner⟩
        rcases mem_reuse inner member with rfl | old
        · exact .inr elsewhere
        · exact apart s old

/-- The slot of a key that is there can be emptied. -/
theorem exists_clear (present : (find key slots).isSome) :
    ∃ slots', clear null key slots = some slots' := by
  induction slots with
  | nil => cases present
  | cons slot rest ih =>
      rw [clear]
      split
      next => exact ⟨_, rfl⟩
      next elsewhere =>
        rw [find_cons_of_ne elsewhere] at present
        obtain ⟨rest', cleared⟩ := ih present
        exact ⟨slot :: rest', by rw [cleared, Option.map_some]⟩

theorem mem_clear (cleared : clear null key slots = some slots') {slot : K × V}
    (member : slot ∈ slots') : slot.1 = null ∨ slot ∈ slots := by
  induction slots generalizing slots' with
  | nil => cases cleared
  | cons first rest ih =>
      rw [clear] at cleared
      split at cleared
      next here =>
        obtain rfl := Option.some.inj cleared
        rcases List.mem_cons.mp member with rfl | old
        · exact .inl rfl
        · exact .inr (List.mem_cons_of_mem _ old)
      next elsewhere =>
        obtain ⟨rest', inner, rfl⟩ := Option.map_eq_some_iff.mp cleared
        rcases List.mem_cons.mp member with rfl | later
        · exact .inr List.mem_cons_self
        · exact (ih inner later).imp_right (List.mem_cons_of_mem _)

theorem Distinct.clear (distinct : Distinct null slots)
    (cleared : clear null key slots = some slots') : Distinct null slots' := by
  induction slots generalizing slots' with
  | nil => cases cleared
  | cons slot rest ih =>
      obtain ⟨apart, later⟩ := List.pairwise_cons.mp distinct
      rw [Slots.clear] at cleared
      split at cleared
      next here =>
        obtain rfl := Option.some.inj cleared
        exact List.pairwise_cons.mpr ⟨fun _ _ => .inl rfl, later⟩
      next elsewhere =>
        obtain ⟨rest', inner, rfl⟩ := Option.map_eq_some_iff.mp cleared
        refine List.pairwise_cons.mpr ⟨fun s member => ?_, ih later inner⟩
        rcases mem_clear inner member with empty | old
        · rcases eq_or_ne slot.1 null with null | nonnull
          · exact .inl null
          · exact .inr (empty ▸ nonnull)
        · exact apart s old

/-- **What is found after the slot of a key has been emptied.** -/
theorem find_clear (distinct : Distinct null slots) (cleared : clear null key slots = some slots')
    (keyNonnull : key ≠ null) (nonnull : other ≠ null) :
    find other slots' = if key = other then none else find other slots := by
  induction slots generalizing slots' with
  | nil => cases cleared
  | cons slot rest ih =>
      obtain ⟨apart, later⟩ := List.pairwise_cons.mp distinct
      rw [clear] at cleared
      split at cleared
      next here =>
        obtain rfl := Option.some.inj cleared
        rw [find_cons_of_ne nonnull.symm, find, here]
        split
        next same =>
          subst same
          refine find_eq_none.mpr fun s member => ?_
          have differ := (apart s member).resolve_left (here ▸ keyNonnull)
          exact fun same => differ (here.trans same.symm)
        next => rfl
      next elsewhere =>
        obtain ⟨rest', inner, rfl⟩ := Option.map_eq_some_iff.mp cleared
        rw [find, find, ih later inner]
        split
        next here => rw [if_neg fun same => elsewhere (here.trans same.symm)]
        next => rfl

end Slots

/-! ## Buckets -/

namespace SlotTable

variable {B : Type w} [DecidableEq B] (hash : K → B) {table : B → List (K × V)} {key other : K}

/-- The value of a key in a table. -/
def lookup (table : B → List (K × V)) (key : K) : Option V := Slots.find key (table (hash key))

/-- No key has two slots in its bucket. -/
def Distinct (null : K) (table : B → List (K × V)) : Prop :=
  ∀ index, Slots.Distinct null (table index)

/-- **A change in the bucket of a key is seen by that key only**, whatever the hash is. -/
theorem lookup_update {slots : List (K × V)} {result : Option V}
    (found : Slots.find other slots =
      if key = other then result else Slots.find other (table (hash key))) :
    lookup hash (Function.update table (hash key) slots) other =
      if key = other then result else lookup hash table other := by
  rw [lookup]
  rcases eq_or_ne (hash other) (hash key) with same | differ
  · rw [same, Function.update_self, found, lookup, same]
  · have other_ne : key ≠ other := fun same => differ (congrArg hash same.symm)
    rw [Function.update_of_ne differ, if_neg other_ne, lookup]

omit [DecidableEq K] in
theorem Distinct.update {null : K} {index : B} {slots : List (K × V)}
    (distinct : Distinct null table) (bucket : Slots.Distinct null slots) :
    Distinct null (Function.update table index slots) := by
  intro i
  rcases eq_or_ne i index with rfl | differ
  · rw [Function.update_self]
    exact bucket
  · rw [Function.update_of_ne differ]
    exact distinct i

end SlotTable

end Containers
