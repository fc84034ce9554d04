import Mathlib.Algebra.BigOperators.Group.List.Basic
import Mathlib.Algebra.Order.Group.Nat
import Mathlib.Data.List.Basic
import Mathlib.Data.List.Range
import Mathlib.Data.Nat.Log

/-!
# Folding along a binary tree of indices

The parts of a sequence are folded separately and the results are combined
along a binary tree: in level `k` the result of index `i`, a multiple of
`2 ^ (k + 1)`, absorbs the result of index `i + 2 ^ k` when there is one
(`combineTree`).

`FoldLaw` is what the combination needs to agree with one fold over the whole
sequence.  It asks for associativity, and for the start value to be neutral on
the right of the values a fold can reach.  A two-sided unit gives it
(`FoldLaw.of_unit`), and so does a start value that is only neutral for those
values.  The tree need not be full: `combineTree_root` holds for every number of
parts.

Subtraction has no such law.  A leaf enters the root of a tree of subtractions
with the sign of the number of ones in its index (`combineTree_sub`).
-/

set_option autoImplicit false

namespace Parallel

universe u

variable {α : Type u}

/-- The fold of parts can be combined into the fold of the whole. -/
structure FoldLaw (f : α → α → α) (start : α) : Prop where
  assoc : ∀ a b c, f (f a b) c = f a (f b c)
  right : ∀ items : List α, f (items.foldl f start) start = items.foldl f start

namespace FoldLaw

variable {f : α → α → α} {start : α}

theorem of_unit (assoc : ∀ a b c, f (f a b) c = f a (f b c)) (right : ∀ a, f a start = a) :
    FoldLaw f start :=
  ⟨assoc, fun _ => right _⟩

theorem foldl_assoc (law : FoldLaw f start) (a b : α) (items : List α) :
    items.foldl f (f a b) = f a (items.foldl f b) := by
  induction items generalizing b with
  | nil => rfl
  | cons item items ih => rw [List.foldl_cons, List.foldl_cons, law.assoc, ih]

/-- The fold of two sequences in a row is the combination of their folds. -/
theorem foldl_append (law : FoldLaw f start) (first second : List α) :
    (first ++ second).foldl f start = f (first.foldl f start) (second.foldl f start) := by
  rw [List.foldl_append, ← law.foldl_assoc, law.right]

/-- Folding the folds of the parts is folding the whole. -/
theorem foldl_foldl (law : FoldLaw f start) (parts : List (List α)) :
    (parts.map (·.foldl f start)).foldl f start = parts.flatten.foldl f start := by
  induction parts using List.reverseRecOn with
  | nil => rfl
  | append_singleton parts last ih =>
      rw [List.map_append, List.foldl_append, ih, List.flatten_append, law.foldl_append]
      simp

end FoldLaw

/-- The value at an index after the first levels of the tree. -/
def combineTree (f : α → α → α) (leaf : ℕ → α) (parts : ℕ) : ℕ → ℕ → α
  | 0, i => leaf i
  | level + 1, i =>
      if i % 2 ^ (level + 1) = 0 ∧ i + 2 ^ level < parts then
        f (combineTree f leaf parts level i) (combineTree f leaf parts level (i + 2 ^ level))
      else
        combineTree f leaf parts level i

section Tree

variable {f : α → α → α} {start : α} {leaf : ℕ → α} {parts : ℕ}

/-- The parts below an inner index of the tree. -/
def below (parts level i : ℕ) : List ℕ := List.range' i (min (2 ^ level) (parts - i))

/-- With a partner, the indices below are those below both children. -/
theorem below_succ {level i : ℕ} (partner : i + 2 ^ level < parts) :
    below parts (level + 1) i = below parts level i ++ below parts level (i + 2 ^ level) := by
  have left : min (2 ^ level) (parts - i) = 2 ^ level := by omega
  have both : min (2 ^ (level + 1)) (parts - i) =
      2 ^ level + min (2 ^ level) (parts - (i + 2 ^ level)) := by
    rw [pow_succ]
    omega
  rw [below, below, below, left, both]
  exact (List.range'_append_1).symm

/-- Without a partner, no index is added. -/
theorem below_succ_of_le {level i : ℕ} (alone : parts ≤ i + 2 ^ level) :
    below parts (level + 1) i = below parts level i := by
  have short : min (2 ^ (level + 1)) (parts - i) = min (2 ^ level) (parts - i) := by
    rw [pow_succ]
    omega
  rw [below, below, short]

/-- **The value at an inner index is the fold of the parts below it, in order.** -/
theorem combineTree_eq_foldl (law : FoldLaw f start) {items : ℕ → List α}
    (leaves : ∀ i, leaf i = (items i).foldl f start) (level i : ℕ) (inner : 2 ^ level ∣ i)
    (within : i < parts) :
    combineTree f leaf parts level i = ((below parts level i).flatMap items).foldl f start := by
  induction level generalizing i with
  | zero =>
      have single : min 1 (parts - i) = 1 := by omega
      simp [combineTree, below, leaves, single]
  | succ level ih =>
      have half : 2 ^ level ∣ i := Nat.dvd_trans (Nat.pow_dvd_pow 2 (Nat.le_succ level)) inner
      have aligned : i % 2 ^ (level + 1) = 0 := Nat.mod_eq_zero_of_dvd inner
      by_cases partner : i + 2 ^ level < parts
      · rw [combineTree, if_pos ⟨aligned, partner⟩, ih i half within,
          ih (i + 2 ^ level) ((Nat.dvd_add_right half).mpr (Nat.dvd_refl _)) partner,
          below_succ partner, List.flatMap_append,
          law.foldl_append]
      · rw [combineTree, if_neg fun both => partner both.2, ih i half within,
          below_succ_of_le (Nat.le_of_not_lt partner)]

/-- **The root holds the fold of the whole sequence**, for any number of parts,
once the tree has enough levels. -/
theorem combineTree_root (law : FoldLaw f start) {items : ℕ → List α}
    (leaves : ∀ i, leaf i = (items i).foldl f start) (nonempty : 0 < parts) {level : ℕ}
    (enough : parts ≤ 2 ^ level) :
    combineTree f leaf parts level 0 = ((List.range parts).flatMap items).foldl f start := by
  have all : below parts level 0 = List.range parts := by
    rw [below, Nat.sub_zero, min_eq_right enough, List.range_eq_range']
  rw [combineTree_eq_foldl law leaves level 0 (Nat.dvd_zero _) nonempty, all]

end Tree

/-! ## Trees of subtractions -/

/-- The index has an odd number of ones in binary. -/
def oddOnes : ℕ → Bool
  | 0 => false
  | i + 1 => xor ((i + 1) % 2 == 1) (oddOnes ((i + 1) / 2))

theorem oddOnes_eq (i : ℕ) : oddOnes i = xor (i % 2 == 1) (oddOnes (i / 2)) := by
  cases i with
  | zero => simp [oddOnes]
  | succ i => rw [oddOnes]

/-- A further one at the top changes the parity. -/
theorem oddOnes_two_pow_add {level j : ℕ} (within : j < 2 ^ level) :
    oddOnes (2 ^ level + j) = !oddOnes j := by
  induction level generalizing j with
  | zero =>
      obtain rfl : j = 0 := by simpa using within
      rw [oddOnes_eq]
      simp [oddOnes]
  | succ level ih =>
      rw [pow_succ] at within ⊢
      have half : (2 ^ level * 2 + j) / 2 = 2 ^ level + j / 2 := by omega
      have parity : (2 ^ level * 2 + j) % 2 = j % 2 := by omega
      rw [oddOnes_eq, half, parity, ih (by omega), oddOnes_eq j]
      simp

section Subtraction

variable {G : Type u} [AddCommGroup G] {parts : ℕ}

/-- The leaf at a distance from an inner index, with the sign it enters with. -/
def signed (leaf : ℕ → G) (i j : ℕ) : G := if oddOnes j then -leaf (i + j) else leaf (i + j)

theorem signed_two_pow_add (leaf : ℕ → G) (i : ℕ) {level j : ℕ} (within : j < 2 ^ level) :
    signed leaf i (2 ^ level + j) = -signed leaf (i + 2 ^ level) j := by
  rw [signed, signed, oddOnes_two_pow_add within, ← Nat.add_assoc]
  cases oddOnes j <;> simp

/-- **The value of a tree of subtractions.** -/
theorem combineTree_sub (leaf : ℕ → G) (level i : ℕ) (inner : 2 ^ level ∣ i)
    (within : i < parts) :
    combineTree (· - ·) leaf parts level i =
      ((List.range (min (2 ^ level) (parts - i))).map (signed leaf i)).sum := by
  induction level generalizing i with
  | zero =>
      have single : min (2 ^ 0) (parts - i) = 1 := by simp; omega
      rw [single]
      simp [combineTree, signed, oddOnes]
  | succ level ih =>
      have half : 2 ^ level ∣ i := Nat.dvd_trans (Nat.pow_dvd_pow 2 (Nat.le_succ level)) inner
      have aligned : i % 2 ^ (level + 1) = 0 := Nat.mod_eq_zero_of_dvd inner
      by_cases partner : i + 2 ^ level < parts
      · have left : min (2 ^ level) (parts - i) = 2 ^ level := by omega
        have both : min (2 ^ (level + 1)) (parts - i) =
            2 ^ level + min (2 ^ level) (parts - (i + 2 ^ level)) := by
          rw [pow_succ]
          omega
        have right : (List.range (min (2 ^ level) (parts - (i + 2 ^ level)))).map
              (signed leaf i ∘ (2 ^ level + ·)) =
            (List.range (min (2 ^ level) (parts - (i + 2 ^ level)))).map
              ((fun x => -x) ∘ signed leaf (i + 2 ^ level)) :=
          List.map_congr_left fun j member => signed_two_pow_add leaf i
            ((List.mem_range.mp member).trans_le (Nat.min_le_left _ _))
        rw [combineTree, if_pos ⟨aligned, partner⟩, ih i half within,
          ih (i + 2 ^ level) ((Nat.dvd_add_right half).mpr (Nat.dvd_refl _)) partner, left, both,
          List.range_add, List.map_append, List.sum_append, List.map_map, right, ← List.map_map,
          ← List.sum_neg, sub_eq_add_neg]
      · have short : min (2 ^ (level + 1)) (parts - i) = min (2 ^ level) (parts - i) := by
          rw [pow_succ]
          omega
        rw [combineTree, if_neg fun both => partner both.2, ih i half within, short]

end Subtraction

end Parallel
