import ArgobotsReduction.Reduction.Operations

/-!
# Logical conjunction and disjunction

`reduce_logical_and` and `reduce_logical_or` of the integer types.  A fold that starts with a
truth value gives a truth value, also for an empty slice.

The conjunction of `long long` starts with 0, so it is 0 for every array.  It is right exactly
when the array has a zero (`logical_iff`).
-/

set_option autoImplicit false

namespace ArgobotsReduction.Reduction

open Parallel

universe v

inductive Connective where
  | and
  | or
  deriving DecidableEq, Repr

namespace Connective

def operation : Connective → Operation
  | and => .logicalAnd
  | or => .logicalOr

/-- What the connective says of the elements of an array. -/
def Holds {α : Type} [Zero α] (array : ℕ → α) (numElems : ℕ) : Connective → Prop
  | and => ∀ i < numElems, array i ≠ 0
  | or => ∃ i < numElems, array i ≠ 0

instance {α : Type} [Zero α] [DecidableEq α] (array : ℕ → α) (numElems : ℕ) :
    (connective : Connective) → Decidable (connective.Holds array numElems)
  | and => inferInstanceAs (Decidable (∀ i < numElems, array i ≠ 0))
  | or => inferInstanceAs (Decidable (∃ i < numElems, array i ≠ 0))

end Connective

namespace Platform

variable {platform : Platform} {type : IntType}

theorem one_ne_zero_of_wide (wide : 0 < platform.width type) : (1 : platform.Value type) ≠ 0 := by
  intro same
  have values : 1 % 2 ^ platform.width type = 0 % 2 ^ platform.width type :=
    congrArg BitVec.toNat same
  rw [Nat.mod_eq_of_lt (Nat.one_lt_two_pow (Nat.ne_of_gt wide)), Nat.zero_mod] at values
  exact absurd values one_ne_zero

/-- A conjunction that starts true is true when no element is zero. -/
theorem foldl_logicalAnd_one (wide : 0 < platform.width type) (items : List (platform.Value type)) :
    items.foldl (platform.reduceFunc type .logicalAnd) 1 =
      if ∀ item ∈ items, item ≠ 0 then 1 else 0 := by
  induction items with
  | nil => simp
  | cons item items ih =>
      have start : platform.reduceFunc type .logicalAnd 1 item = if item ≠ 0 then 1 else 0 :=
        if_congr (and_iff_left (one_ne_zero_of_wide wide)) rfl rfl
      rw [List.foldl_cons, start]
      split
      next nonzero =>
        rw [ih]
        exact if_congr (by rw [List.forall_mem_cons, and_iff_right nonzero]) rfl rfl
      next zero =>
        rw [foldl_logicalAnd_zero, if_neg]
        intro all
        exact zero (all item List.mem_cons_self)

/-- A disjunction that starts true stays true. -/
theorem foldl_logicalOr_one (wide : 0 < platform.width type) (items : List (platform.Value type)) :
    items.foldl (platform.reduceFunc type .logicalOr) 1 = 1 := by
  induction items with
  | nil => rfl
  | cons item items ih =>
      have start : platform.reduceFunc type .logicalOr 1 item = 1 :=
        if_pos (.inr (one_ne_zero_of_wide wide))
      rw [List.foldl_cons, start, ih]

/-- A disjunction that starts false is true when some element is not zero. -/
theorem foldl_logicalOr_zero (wide : 0 < platform.width type) (items : List (platform.Value type)) :
    items.foldl (platform.reduceFunc type .logicalOr) 0 =
      if ∃ item ∈ items, item ≠ 0 then 1 else 0 := by
  induction items with
  | nil => simp
  | cons item items ih =>
      have start : platform.reduceFunc type .logicalOr 0 item = if item ≠ 0 then 1 else 0 :=
        if_congr (or_iff_left (not_not.mpr rfl)) rfl rfl
      rw [List.foldl_cons, start]
      split
      next nonzero =>
        rw [foldl_logicalOr_one wide, if_pos]
        exact ⟨item, List.mem_cons_self, nonzero⟩
      next zero =>
        rw [ih]
        exact if_congr (by simp [not_not.mp zero]) rfl rfl

/-- The fold of an array.  The conjunction of `long long` is zero. -/
theorem foldl_connective (wide : 0 < platform.width type) (connective : Connective)
    (array : ℕ → platform.Value type) (numElems : ℕ) :
    ((List.range numElems).map array).foldl (platform.reduceFunc type connective.operation)
        (platform.defaultValue type connective.operation) =
      if connective = .and ∧ type = .longLong then 0
      else if connective.Holds array numElems then 1 else 0 := by
  cases connective with
  | or =>
      rw [if_neg (by simp)]
      refine (foldl_logicalOr_zero wide _).trans (if_congr ?_ rfl rfl)
      simp [Connective.Holds]
  | and =>
      rcases eq_or_ne type .longLong with rfl | other
      · rw [if_pos ⟨rfl, rfl⟩]
        exact foldl_logicalAnd_zero platform .longLong _
      · rw [if_neg (fun both => other both.2), Connective.operation, defaultValue, if_neg other]
        refine (foldl_logicalAnd_one wide _).trans (if_congr ?_ rfl rfl)
        simp [Connective.Holds]

section Results

variable {Pool : Type v} (platform) (type) (connective : Connective)
  (context : ReductionContext Pool) (array : ℕ → platform.Value type) (numElems : ℕ)

/-- Every schedule gives 1 or 0, as the connective holds of the array or not, in both
variants. -/
structure IsTruth : Prop where
  tree : TreeResult platform connective.operation type context array numElems
    (if connective.Holds array numElems then 1 else 0)
  mutex : MutexResult platform connective.operation type context array numElems
    (if connective.Holds array numElems then 1 else 0)

variable {platform type connective context array numElems}

theorem isTruth_iff (wide : 0 < platform.width type) :
    IsTruth platform type connective context array numElems ↔
      (connective = .and → type = .longLong → ∃ i < numElems, array i = 0) := by
  have other : connective.operation ≠ .sub := by cases connective <;> simp [Connective.operation]
  have law := platform.foldLaw type other
  have tree := Tree.treeValue_eq_foldl array numElems context law
  have mutex := Mutex.mutexValue_eq_foldl array numElems
    (platform.defaultValue type connective.operation) context law
  rw [foldl_connective wide] at tree mutex
  have results : IsTruth platform type connective context array numElems ↔
      (if connective = .and ∧ type = .longLong then (0 : platform.Value type)
        else if connective.Holds array numElems then 1 else 0) =
      if connective.Holds array numElems then 1 else 0 := by
    constructor
    · intro truth
      exact tree.symm.trans (treeResult_iff.mp truth.tree)
    · intro same
      exact ⟨treeResult_iff.mpr (tree.trans same), mutexResult_iff.mpr (mutex.trans same)⟩
  rw [results]
  by_cases broken : connective = .and ∧ type = .longLong
  · obtain ⟨rfl, rfl⟩ := broken
    rw [if_pos ⟨rfl, rfl⟩]
    constructor
    · intro same _ _
      by_contra noZero
      have holds : Connective.and.Holds array numElems := fun i less zero => noZero ⟨i, less, zero⟩
      rw [if_pos holds] at same
      exact one_ne_zero_of_wide wide same.symm
    · intro zero
      obtain ⟨i, less, same⟩ := zero rfl rfl
      have fails : ¬ Connective.and.Holds array numElems := fun holds => holds i less same
      rw [if_neg fails]
  · rw [if_neg broken]
    exact iff_of_true rfl fun conjunction longLong => absurd ⟨conjunction, longLong⟩ broken

end Results

/-- **When the logical reductions are right.**  The disjunction always is, and so is the
conjunction of every type but `long long`; that one is right exactly when the array has a zero. -/
theorem logical_iff (platform : Platform) (wide : ∀ type, 8 ≤ platform.width type)
    (type : IntType) (connective : Connective) {Pool : Type v} (context : ReductionContext Pool)
    (array : ℕ → platform.Value type) (numElems : ℕ) :
    IsTruth platform type connective context array numElems ↔
      (connective = .and → type = .longLong → ∃ i < numElems, array i = 0) :=
  isTruth_iff (Nat.lt_of_lt_of_le (by decide) (wide type))

theorem wide_lp64 : ∀ type, 8 ≤ lp64.width type := by
  intro type
  cases type <;> decide

/-- The conjunction of the array `0, 0` of `long long` with four ULTs. -/
theorem logical_iff_zeros :
    IsTruth lp64 .longLong .and ⟨1, id, 4, by decide, by decide⟩ (fun _ => 0) 2 :=
  (logical_iff lp64 wide_lp64 .longLong .and ⟨1, id, 4, by decide, by decide⟩ (fun _ => 0) 2).mpr
    fun _ _ => ⟨0, two_pos, rfl⟩

/-- The conjunction of the array `1` of `long long` comes out as 0. -/
theorem not_logical_longLong :
    ¬ IsTruth lp64 .longLong .and ⟨1, id, 1, by decide, by decide⟩ (fun _ => 1) 1 := by
  rw [isTruth_iff (by decide)]
  intro zero
  obtain ⟨i, -, same⟩ := zero rfl rfl
  exact absurd same (by decide)

end Platform

end ArgobotsReduction.Reduction
