import Mathlib.Order.Lattice
import ArgobotsReduction.Parallel.TreeFold

/-!
# The larger of two elements

Elements are compared by a key, and of two elements with the same key the first one is
taken.  A fold of a list takes the largest of the start value and the elements.  It is one of
the elements exactly when some element is not below the start value
(`foldl_larger_mem_iff`).

The smaller of two elements is the larger one by a key with the dual order.
-/

set_option autoImplicit false

namespace Parallel

universe u v

variable {α : Type u} {β : Type v} [LinearOrder β] {key : α → β}

/-- The larger of two elements. -/
def larger (key : α → β) (a b : α) : α := if key a < key b then b else a

theorem key_larger (key : α → β) (a b : α) : key (larger key a b) = max (key a) (key b) := by
  rw [larger]
  split
  next less => exact (max_eq_right less.le).symm
  next notLess => exact (max_eq_left (not_lt.mp notLess)).symm

theorem larger_eq_left_or_right (key : α → β) (a b : α) :
    larger key a b = a ∨ larger key a b = b := by
  rw [larger]
  split
  · exact .inr rfl
  · exact .inl rfl

section Laws

variable (injective : Function.Injective key)

include injective

theorem larger_assoc (a b c : α) :
    larger key (larger key a b) c = larger key a (larger key b c) := by
  apply injective
  simp only [key_larger, max_assoc]

theorem larger_swap (a b c : α) :
    larger key (larger key a b) c = larger key (larger key a c) b := by
  apply injective
  simp only [key_larger, max_right_comm]

end Laws

theorem le_key_foldl_larger (key : α → β) (start : α) (items : List α) :
    key start ≤ key (items.foldl (larger key) start) ∧
      ∀ item ∈ items, key item ≤ key (items.foldl (larger key) start) := by
  induction items generalizing start with
  | nil => exact ⟨le_rfl, fun _ member => absurd member List.not_mem_nil⟩
  | cons first items ih =>
      obtain ⟨above, others⟩ := ih (larger key start first)
      rw [key_larger key] at above
      refine ⟨(le_max_left _ _).trans above, fun item member => ?_⟩
      rcases List.mem_cons.mp member with rfl | later
      · exact (le_max_right _ _).trans above
      · exact others item later

theorem foldl_larger_eq_or_mem (key : α → β) (start : α) (items : List α) :
    items.foldl (larger key) start = start ∨ items.foldl (larger key) start ∈ items := by
  induction items generalizing start with
  | nil => exact .inl rfl
  | cons first items ih =>
      rw [List.foldl_cons]
      rcases ih (larger key start first) with same | later
      · rw [same]
        rcases larger_eq_left_or_right key start first with left | right
        · exact .inl left
        · rw [right]
          exact .inr List.mem_cons_self
      · exact .inr (List.mem_cons_of_mem _ later)

/-- **A fold finds its result in the list exactly when some element is not below the start
value.** -/
theorem foldl_larger_mem_iff (injective : Function.Injective key) (start : α) (items : List α) :
    items.foldl (larger key) start ∈ items ↔ ∃ item ∈ items, key start ≤ key item := by
  obtain ⟨above, others⟩ := le_key_foldl_larger key start items
  constructor
  · intro member
    exact ⟨_, member, above⟩
  · rintro ⟨item, member, notBelow⟩
    rcases foldl_larger_eq_or_mem key start items with same | found
    · rw [same] at others ⊢
      rwa [injective (le_antisymm notBelow (others item member))]
    · exact found

/-- The start value is not above what a fold has reached. -/
theorem foldLaw_larger (injective : Function.Injective key) (start : α) :
    FoldLaw (larger key) start where
  assoc := larger_assoc injective
  right items := if_neg (not_lt.mpr (le_key_foldl_larger key start items).1)

end Parallel
