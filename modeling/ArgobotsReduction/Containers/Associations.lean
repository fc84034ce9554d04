import Mathlib.Data.List.Nodup
import Mathlib.Logic.Function.Basic

/-!
# Lists of keys and values

A list of keys and values stands for a partial function, and `List.lookup` finds the
value of a key.  As long as no key occurs twice, it does not matter where in the list a
key is.  A change at one place changes the value of one key (`lookup_replace`,
`lookup_remove`, `lookup_insert`).
-/

set_option autoImplicit false

namespace Containers

universe u v

variable {K : Type u} {V : Type v} [DecidableEq K]

theorem lookup_of_notMem {key : K} {pairs : List (K × V)} (absent : key ∉ pairs.map Prod.fst) :
    pairs.lookup key = none := by
  rw [List.lookup_eq_none_iff]
  intro pair member
  have other : pair.1 ≠ key := by
    rintro rfl
    exact absent (List.mem_map_of_mem member)
  simpa using other.symm

variable {key : K} {value : V} {front back : List (K × V)}

/-- What is found in a list, in terms of the list without one place -/
theorem lookup_middle (distinct : ((front ++ (key, value) :: back).map Prod.fst).Nodup)
    (other : K) :
    (front ++ (key, value) :: back).lookup other =
      if other = key then some value else (front ++ back).lookup other := by
  have absent : key ∉ front.map Prod.fst := by
    rw [List.map_append, List.nodup_append] at distinct
    exact fun member => distinct.2.2 _ member _ List.mem_cons_self rfl
  rw [List.lookup_append]
  by_cases same : other = key
  · subst same
    rw [lookup_of_notMem absent, List.lookup_cons_self, if_pos rfl, Option.none_or]
  · rw [List.lookup_append, List.lookup_cons, if_neg same, beq_false_of_ne same]

theorem lookup_without (distinct : ((front ++ (key, value) :: back).map Prod.fst).Nodup) :
    (front ++ back).lookup key = none := by
  refine lookup_of_notMem fun member => ?_
  rw [List.map_append, List.map_cons] at distinct
  rw [List.map_append] at member
  exact (List.nodup_middle.mp distinct).notMem member

/-- **A new value for a key** -/
theorem lookup_replace (distinct : ((front ++ (key, value) :: back).map Prod.fst).Nodup)
    (new : V) (other : K) :
    (front ++ (key, new) :: back).lookup other =
      Function.update (fun k => (front ++ (key, value) :: back).lookup k) key (some new) other := by
  have distinctNew : ((front ++ (key, new) :: back).map Prod.fst).Nodup := by
    simpa using distinct
  rw [lookup_middle distinctNew]
  by_cases same : other = key
  · subst same
    rw [if_pos rfl, Function.update_self]
  · rw [if_neg same, Function.update_of_ne same, lookup_middle distinct, if_neg same]

/-- **A key that is removed** -/
theorem lookup_remove (distinct : ((front ++ (key, value) :: back).map Prod.fst).Nodup)
    (other : K) :
    (front ++ back).lookup other =
      Function.update (fun k => (front ++ (key, value) :: back).lookup k) key none other := by
  by_cases same : other = key
  · subst same
    rw [Function.update_self, lookup_without distinct]
  · rw [Function.update_of_ne same, lookup_middle distinct, if_neg same]

/-- **A new key** -/
theorem lookup_insert (absent : key ∉ front.map Prod.fst) (value : V) (other : K) :
    (front ++ [(key, value)]).lookup other =
      Function.update (fun k => front.lookup k) key (some value) other := by
  rw [List.lookup_append]
  by_cases same : other = key
  · subst same
    rw [lookup_of_notMem absent, Function.update_self, List.lookup_cons_self, Option.none_or]
  · rw [Function.update_of_ne same, List.lookup_cons, beq_false_of_ne same]
    simp

end Containers
