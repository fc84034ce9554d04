import Mathlib.Algebra.BigOperators.Group.Finset.Basic
import Mathlib.Algebra.Order.BigOperators.Group.Finset
import Mathlib.Algebra.Order.Group.Multiset
import Mathlib.Data.Fintype.BigOperators
import Mathlib.Data.Multiset.Count
import Mathlib.Tactic.Abel

/-!
# Ledgers

A ledger says which tokens are at which place.  Tokens are moved, and neither
copied nor lost, when the total over all places stays the same.  When the total
has no duplicates, every token in it is at exactly one place
(`Ledger.existsUnique_place`), and once at that place (`Ledger.nodup_place`).
-/

set_option autoImplicit false

namespace Containers

universe u v

/-- A change of one term changes a sum by as much. -/
theorem sum_update_add {α : Type u} {M : Type v} [Fintype α] [DecidableEq α] [AddCommMonoid M]
    (f : α → M) (a : α) (value : M) :
    (∑ x, Function.update f a value x) + f a = (∑ x, f x) + value := by
  rw [Finset.sum_update_of_mem (Finset.mem_univ a),
    ← Finset.add_sum_erase Finset.univ f (Finset.mem_univ a), Finset.sdiff_singleton_eq_erase]
  abel

/-- The tokens at each place. -/
abbrev Ledger (Place : Type u) (Token : Type v) := Place → Multiset Token

namespace Ledger

variable {Place : Type u} {Token : Type v} [Fintype Place]

/-- All tokens of a ledger. -/
def total (ledger : Ledger Place Token) : Multiset Token := ∑ place, ledger place

theorem mem_total {ledger : Ledger Place Token} {token : Token} :
    token ∈ ledger.total ↔ ∃ place, token ∈ ledger place := by
  simp [total, Multiset.mem_sum]

theorem le_total (ledger : Ledger Place Token) (place : Place) :
    ledger place ≤ ledger.total :=
  Finset.single_le_sum (f := ledger) (fun _ _ => Multiset.zero_le _) (Finset.mem_univ place)

/-- A change at one place changes the total by as much. -/
theorem total_update [DecidableEq Place] (ledger : Ledger Place Token) (place : Place)
    (tokens : Multiset Token) :
    total (Function.update ledger place tokens) + ledger place = ledger.total + tokens :=
  sum_update_add ledger place tokens

/-- **Without duplicates in the total, no token is twice at one place.** -/
theorem nodup_place {ledger : Ledger Place Token} (nodup : ledger.total.Nodup) (place : Place) :
    (ledger place).Nodup :=
  Multiset.nodup_of_le (ledger.le_total place) nodup

/-- Two places together hold no more than all places. -/
theorem add_le_total [DecidableEq Place] (ledger : Ledger Place Token) {first second : Place}
    (different : first ≠ second) : ledger first + ledger second ≤ ledger.total := by
  have pair : ∑ place ∈ {first, second}, ledger place = ledger first + ledger second :=
    Finset.sum_pair different
  rw [← pair]
  exact Finset.sum_le_sum_of_subset (Finset.subset_univ _)

/-- **Without duplicates in the total, a token is at one place only.** -/
theorem place_unique [DecidableEq Place] {ledger : Ledger Place Token}
    (nodup : ledger.total.Nodup) {token : Token} {first second : Place}
    (inFirst : token ∈ ledger first) (inSecond : token ∈ ledger second) : first = second := by
  by_contra different
  have both := Multiset.nodup_of_le (ledger.add_le_total different) nodup
  exact Multiset.disjoint_left.mp (Multiset.nodup_add.mp both).2.2 inFirst inSecond

/-- **Every token is at exactly one place.** -/
theorem existsUnique_place [DecidableEq Place] {ledger : Ledger Place Token}
    (nodup : ledger.total.Nodup) {token : Token} (member : token ∈ ledger.total) :
    ∃! place, token ∈ ledger place := by
  obtain ⟨place, here⟩ := mem_total.mp member
  exact ⟨place, here, fun other there => place_unique nodup there here⟩

end Ledger

end Containers
