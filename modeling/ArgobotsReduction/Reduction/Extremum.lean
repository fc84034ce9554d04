import Mathlib.Algebra.Order.Field.Rat
import Mathlib.Data.Rat.Cast.Order
import Mathlib.Order.TypeTags
import Mathlib.Tactic.NormNum
import ArgobotsReduction.Parallel.Larger
import ArgobotsReduction.Reduction.Operations

/-!
# Maximum and minimum

`reduce_max` and `reduce_min` of every exported type.  The values of the floating types are
rational numbers and the two infinities; they are only compared.

For an integer type the default value bounds all values of the type, and the result is an
extremum of every array.  For a floating type `reduce_max` starts with `FLT_MIN` or `DBL_MIN`,
the least positive normal number, and `reduce_min` with the largest finite one.  The result is
an extremum of the array exactly when the default does not lie beyond all elements
(`extremum_iff`).
-/

set_option autoImplicit false

namespace ArgobotsReduction.Reduction

open Parallel

universe v

inductive FloatType where
  | float
  | double
  deriving DecidableEq, Repr

/-- The exported types. -/
inductive NumType where
  | integer (type : IntType)
  | floating (type : FloatType)
  deriving DecidableEq, Repr

/-- The rational numbers and the infinities. -/
abbrev Extended := WithBot (WithTop ℚ)

def Extended.finite (q : ℚ) : Extended := ((q : WithTop ℚ) : Extended)

theorem Extended.finite_le_finite {p q : ℚ} : finite p ≤ finite q ↔ p ≤ q :=
  WithBot.coe_le_coe.trans WithTop.coe_le_coe

theorem Extended.finite_lt_finite {p q : ℚ} : finite p < finite q ↔ p < q :=
  WithBot.coe_lt_coe.trans WithTop.coe_lt_coe

inductive Extremum where
  | max
  | min
  deriving DecidableEq, Repr

namespace FloatType

/-- `FLT_MIN` and `DBL_MIN` -/
def minNormal : FloatType → ℚ
  | float => 1 / 2 ^ 126
  | double => 1 / 2 ^ 1022

/-- `FLT_MAX` and `DBL_MAX` -/
def maxFinite : FloatType → ℚ
  | float => (2 - 1 / 2 ^ 23) * 2 ^ 127
  | double => (2 - 1 / 2 ^ 52) * 2 ^ 1023

/-- `BODY_max` and `BODY_min` -/
def extremumFunc : Extremum → Extended → Extended → Extended
  | .max, a, b => if a < b then b else a
  | .min, a, b => if b < a then b else a

def defaultValue (type : FloatType) : Extremum → Extended
  | .max => .finite type.minNormal
  | .min => .finite type.maxFinite

end FloatType

namespace Extremum

def operation : Extremum → Operation
  | max => .max
  | min => .min

/-- The first number is not beyond the second one. -/
def Within : Extremum → Extended → Extended → Prop
  | max, a, b => a ≤ b
  | min, a, b => b ≤ a

end Extremum

namespace Platform

variable (platform : Platform)

/-- The values of a type. -/
def Element : NumType → Type
  | .integer type => platform.Value type
  | .floating _ => Extended

variable {platform} in
/-- The number a value stands for. -/
def number : {type : NumType} → platform.Element type → Extended
  | .integer type, a => .finite ((@reading platform type a : ℤ) : ℚ)
  | .floating _, a => a

/-- `reduce_max_<type>_func` and `reduce_min_<type>_func` -/
def extremumFunc (extremum : Extremum) : (type : NumType) → platform.Element type →
    platform.Element type → platform.Element type
  | .integer type => platform.reduceFunc type extremum.operation
  | .floating _ => FloatType.extremumFunc extremum

def extremumDefault (extremum : Extremum) : (type : NumType) → platform.Element type
  | .integer type => platform.defaultValue type extremum.operation
  | .floating type => type.defaultValue extremum

end Platform

section Results

variable {α : Type} {Pool : Type v}

/-- Every schedule of `reduce_common` gives the value, in both variants. -/
def Gives (context : ReductionContext Pool) (reduceFunc : α → α → α) (defaultReductionValue : α)
    (array : ℕ → α) (numElems : ℕ) (value : α) : Prop :=
  (∀ memory, Ensures (exec reduceFunc) .free memory
    (fun i => (Tree.reduceCommon context array numElems defaultReductionValue i).body)
    fun final => final .result = some value) ∧
  ∀ memory, Ensures (exec reduceFunc) .free (Mutex.initResult defaultReductionValue memory)
    (fun i => (Mutex.reduceCommon context array numElems defaultReductionValue i).body)
    fun final => final .result = some value

theorem gives_iff {context : ReductionContext Pool} {reduceFunc : α → α → α}
    {defaultReductionValue : α} {array : ℕ → α} {numElems : ℕ} {value : α}
    (swap : ∀ a b c, reduceFunc (reduceFunc a b) c = reduceFunc (reduceFunc a c) b)
    (law : FoldLaw reduceFunc defaultReductionValue) :
    Gives context reduceFunc defaultReductionValue array numElems value ↔
      ((List.range numElems).map array).foldl reduceFunc defaultReductionValue = value := by
  rw [Gives, ensures_tree_iff, ensures_mutex_iff swap,
    Tree.treeValue_eq_foldl array numElems context law,
    Mutex.mutexValue_eq_foldl array numElems defaultReductionValue context law, and_self]

end Results

namespace Platform

variable {platform : Platform} {type : NumType}

/-- The value is an element that no other element goes beyond. -/
structure IsExtremum (extremum : Extremum) (array : ℕ → platform.Element type) (numElems : ℕ)
    (value : platform.Element type) : Prop where
  attained : ∃ i < numElems, array i = value
  bound : ∀ i < numElems, extremum.Within (number (array i)) (number value)

theorem number_injective : Function.Injective (@number platform type) := by
  intro a b same
  cases type with
  | integer type => exact reading_inj (by simpa [number, Extended.finite] using same)
  | floating type => exact same

/-- Both functions take the larger of two values by some key. -/
theorem exists_key (extremum : Extremum) :
    ∃ (β : Type) (_ : LinearOrder β) (key : platform.Element type → β), Function.Injective key ∧
      platform.extremumFunc extremum type = larger key ∧
        ∀ a b : platform.Element type, extremum.Within (number a) (number b) ↔ key a ≤ key b := by
  cases extremum with
  | max =>
      refine ⟨Extended, inferInstance, number, number_injective, ?_, fun a b => .rfl⟩
      funext a b
      cases type with
      | integer type =>
          simp only [extremumFunc, Extremum.operation, reduceFunc, larger, number,
            Extended.finite_lt_finite, Int.cast_lt]
          exact if_congr (less_iff _ _) rfl rfl
      | floating type => rfl
  | min =>
      refine ⟨Extendedᵒᵈ, inferInstance, fun a => OrderDual.toDual (number a),
        number_injective, ?_, fun a b => .rfl⟩
      funext a b
      cases type with
      | integer type =>
          simp only [extremumFunc, Extremum.operation, reduceFunc, larger, number,
            OrderDual.toDual_lt_toDual, Extended.finite_lt_finite, Int.cast_lt]
          exact if_congr (less_iff _ _) rfl rfl
      | floating type => rfl

/-- The fold is an extremum exactly when its start value is not beyond all elements. -/
theorem isExtremum_foldl_iff (extremum : Extremum) (start : platform.Element type)
    (array : ℕ → platform.Element type) (numElems : ℕ) :
    IsExtremum extremum array numElems (((List.range numElems).map array).foldl
        (platform.extremumFunc extremum type) start) ↔
      ∃ i < numElems, extremum.Within (number start) (number (array i)) := by
  obtain ⟨β, order, key, injective, same, within⟩ := @exists_key platform type extremum
  have found := foldl_larger_mem_iff injective start ((List.range numElems).map array)
  obtain ⟨-, above⟩ := le_key_foldl_larger key start ((List.range numElems).map array)
  simp only [List.mem_map, List.mem_range, exists_exists_and_eq_and] at found
  rw [same]
  simp only [within]
  constructor
  · rintro ⟨attained, -⟩
    exact found.mp attained
  · intro reaches
    refine ⟨found.mpr reaches, fun i less => (within _ _).mpr (above _ ?_)⟩
    exact List.mem_map_of_mem (List.mem_range.mpr less)

/-- The default of an integer type is not beyond any value. -/
theorem within_default {type : IntType} (extremum : Extremum)
    (a : platform.Element (.integer type)) :
    extremum.Within (number (platform.extremumDefault extremum (.integer type))) (number a) := by
  cases extremum with
  | max =>
      have least := @minValue_le platform type a
      simpa [Extremum.Within, number, extremumDefault, Extremum.operation, defaultValue,
        Extended.finite_le_finite] using least
  | min =>
      have largest := @le_maxValue platform type a
      simpa [Extremum.Within, number, extremumDefault, Extremum.operation, defaultValue,
        Extended.finite_le_finite] using largest

variable {Pool : Type v} (context : ReductionContext Pool)

/-- The result is an extremum exactly when the default is not beyond all elements. -/
theorem gives_extremum_iff (extremum : Extremum) (start : platform.Element type)
    (array : ℕ → platform.Element type) (numElems : ℕ) :
    (∃ value, Gives context (platform.extremumFunc extremum type) start array numElems value ∧
        IsExtremum extremum array numElems value) ↔
      ∃ i < numElems, extremum.Within (number start) (number (array i)) := by
  rw [← isExtremum_foldl_iff]
  obtain ⟨β, order, key, injective, same, -⟩ := @exists_key platform type extremum
  have gives : ∀ value, Gives context (platform.extremumFunc extremum type) start array numElems
      value ↔ ((List.range numElems).map array).foldl (platform.extremumFunc extremum type) start =
        value := by
    intro value
    rw [same]
    exact gives_iff (larger_swap injective) (foldLaw_larger injective start)
  simp only [gives, exists_eq_left']

/-- **When the extremum of an array is right.**  For the integer types it always is, and for the
floating ones exactly when the default is not beyond all elements. -/
theorem extremum_iff (platform : Platform) (type : NumType) (extremum : Extremum)
    (context : ReductionContext Pool) (array : ℕ → platform.Element type) (numElems : ℕ)
    (nonempty : 0 < numElems) :
    (∃ value, Gives context (platform.extremumFunc extremum type)
        (platform.extremumDefault extremum type) array numElems value ∧
          IsExtremum extremum array numElems value) ↔
      ∀ floatType, type = .floating floatType →
        ∃ i < numElems, extremum.Within (floatType.defaultValue extremum) (number (array i)) := by
  rw [gives_extremum_iff]
  cases type with
  | integer type =>
      refine iff_of_true ⟨0, nonempty, within_default extremum (array 0)⟩ ?_
      rintro floatType ⟨⟩
  | floating type =>
      constructor
      · rintro reaches floatType ⟨⟩
        exact reaches
      · intro reaches
        exact reaches type rfl

def zeroOne (i : ℕ) : lp64.Element (.floating .double) := Extended.finite i

/-- The maximum of the array `0, 1` of `double` is right with three ULTs. -/
theorem extremum_iff_double : ∃ value, Gives ⟨1, id, 3, by decide, by decide⟩
      (lp64.extremumFunc .max (.floating .double)) (lp64.extremumDefault .max (.floating .double))
      zeroOne 2 value ∧ IsExtremum .max zeroOne 2 value := by
  refine (extremum_iff lp64 (.floating .double) .max ⟨1, id, 3, by decide, by decide⟩ zeroOne 2
    two_pos).mpr ?_
  rintro floatType ⟨⟩
  refine ⟨1, one_lt_two, Extended.finite_le_finite.mpr ?_⟩
  rw [Nat.cast_one, FloatType.minNormal]
  exact div_le_one_of_le₀ (one_le_pow₀ one_le_two) (by positivity)

def minusOne (_ : ℕ) : lp64.Element (.floating .float) := Extended.finite (-1)

/-- The maximum of the array `-1` of `float` comes out as `FLT_MIN`. -/
theorem not_extremum_float : ¬ ∃ value, Gives ⟨1, id, 1, by decide, by decide⟩
      (lp64.extremumFunc .max (.floating .float)) (lp64.extremumDefault .max (.floating .float))
      minusOne 1 value ∧ IsExtremum .max minusOne 1 value := by
  rw [gives_extremum_iff]
  rintro ⟨i, -, within⟩
  have below : FloatType.minNormal .float ≤ -1 := Extended.finite_le_finite.mp within
  norm_num [FloatType.minNormal] at below

end Platform

end ArgobotsReduction.Reduction
