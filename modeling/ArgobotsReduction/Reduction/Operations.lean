import Mathlib.Data.BitVec
import Mathlib.Tactic.Abel
import ArgobotsReduction.Reduction.Mutex

/-!
# The exported integer reductions

`reduce_<op>_<type>` is `reduce_common` with the operation of a `BODY_` macro
and a default value.  The widths of the types and the sign of plain `char` are
parameters of the platform; signed arithmetic wraps.

Every operation lets two right arguments change places (`reduceFunc_swap`), so
the mutex variant has one result for every schedule.  Every operation except
subtraction has the fold law of the tree (`foldLaw`), and its result depends
neither on the number of threads nor on the variant.

Subtraction negates the sum of a slice once more in each combination.  The mutex
variant gives the sum of the elements (`mutexValue_sub`), the tree their
alternating sum (`treeValue_sub`).  `independent_iff` says for which inputs the
results agree all the same.
-/

set_option autoImplicit false

namespace ArgobotsReduction.Reduction

open Parallel

universe v

inductive IntType where
  | char
  | int
  | long
  | longLong
  deriving DecidableEq, Repr

inductive Operation where
  | sum
  | sub
  | prod
  | and
  | or
  | xor
  | logicalAnd
  | logicalOr
  | max
  | min
  deriving DecidableEq, Repr

/-- What C leaves to the implementation. -/
structure Platform where
  width : IntType → ℕ
  charSigned : Bool

namespace Platform

variable (platform : Platform)

abbrev Value (type : IntType) := BitVec (platform.width type)

def signed : IntType → Bool
  | .char => platform.charSigned
  | .int | .long | .longLong => true

/-- The comparison `a < b` of a type. -/
def less {type : IntType} (a b : platform.Value type) : Bool :=
  if platform.signed type then a.slt b else a.ult b

/-- `CHAR_MIN`, `INT_MIN`, `LONG_MIN` and `LLONG_MIN`. -/
def minValue (type : IntType) : platform.Value type :=
  if platform.signed type then .intMin _ else 0

/-- `CHAR_MAX`, `INT_MAX`, `LONG_MAX` and `LLONG_MAX`. -/
def maxValue (type : IntType) : platform.Value type :=
  if platform.signed type then .intMax _ else .allOnes _

/-- The `BODY_` macros: the new value of the first argument. -/
def reduceFunc (type : IntType) : Operation → platform.Value type → platform.Value type →
    platform.Value type
  | .sum, a, b => a + b
  | .sub, a, b => a - b
  | .prod, a, b => a * b
  | .and, a, b => a &&& b
  | .or, a, b => a ||| b
  | .xor, a, b => a ^^^ b
  | .logicalAnd, a, b => if b ≠ 0 ∧ a ≠ 0 then 1 else 0
  | .logicalOr, a, b => if b ≠ 0 ∨ a ≠ 0 then 1 else 0
  | .max, a, b => if platform.less a b then b else a
  | .min, a, b => if platform.less b a then b else a

/-- The default values.  The logical conjunction of `long long` starts with 0,
that of the other types with 1. -/
def defaultValue (type : IntType) : Operation → platform.Value type
  | .sum | .sub | .or | .xor | .logicalOr => 0
  | .prod => 1
  | .and => ~~~0
  | .logicalAnd => if type = .longLong then 0 else 1
  | .max => platform.minValue type
  | .min => platform.maxValue type

/-! ## The order of a type -/

section Order

variable {platform} {type : IntType}

/-- The number a value stands for. -/
def reading (a : platform.Value type) : ℤ :=
  if platform.signed type then a.toInt else a.toNat

theorem less_iff (a b : platform.Value type) :
    platform.less a b = true ↔ reading a < reading b := by
  rw [less, reading, reading]
  split
  · exact BitVec.slt_iff_toInt_lt
  · exact BitVec.ult_iff_lt.trans (Int.ofNat_lt.symm.trans Iff.rfl)

theorem reading_inj {a b : platform.Value type} (same : reading a = reading b) : a = b := by
  rw [reading, reading] at same
  split at same
  · exact BitVec.eq_of_toInt_eq same
  · exact BitVec.eq_of_toNat_eq (Int.ofNat_inj.mp same)

theorem minValue_le (a : platform.Value type) : reading (platform.minValue type) ≤ reading a := by
  rw [reading, reading, minValue]
  split
  · exact BitVec.toInt_intMin_le a
  · simp

theorem le_maxValue (a : platform.Value type) : reading a ≤ reading (platform.maxValue type) := by
  rw [reading, reading, maxValue]
  split
  · rw [BitVec.toInt_intMax]
    exact BitVec.toInt_le
  · have bound := a.isLt
    simp only [BitVec.toNat_allOnes, Nat.cast_le]
    omega

end Order

/-! ## The laws of the operations -/

section Laws

variable (type : IntType)

/-- Two right arguments change places in every operation. -/
theorem reduceFunc_swap (operation : Operation) (a b c : platform.Value type) :
    platform.reduceFunc type operation (platform.reduceFunc type operation a b) c =
      platform.reduceFunc type operation (platform.reduceFunc type operation a c) b := by
  cases operation with
  | sum => exact add_right_comm a b c
  | sub => exact sub_right_comm a b c
  | prod => exact mul_right_comm a b c
  | and => simp only [reduceFunc, BitVec.and_assoc, BitVec.and_comm b c]
  | or => simp only [reduceFunc, BitVec.or_assoc, BitVec.or_comm b c]
  | xor => simp only [reduceFunc, BitVec.xor_assoc, BitVec.xor_comm b c]
  | logicalAnd => simp only [reduceFunc]; grind
  | logicalOr => simp only [reduceFunc]; grind
  | max =>
      refine reading_inj ?_
      simp only [reduceFunc, less_iff]
      split_ifs <;> omega
  | min =>
      refine reading_inj ?_
      simp only [reduceFunc, less_iff]
      split_ifs <;> omega

theorem reduceFunc_assoc {operation : Operation} (other : operation ≠ .sub)
    (a b c : platform.Value type) :
    platform.reduceFunc type operation (platform.reduceFunc type operation a b) c =
      platform.reduceFunc type operation a (platform.reduceFunc type operation b c) := by
  cases operation with
  | sum => exact add_assoc a b c
  | sub => exact absurd rfl other
  | prod => exact mul_assoc a b c
  | and => exact BitVec.and_assoc a b c
  | or => exact BitVec.or_assoc a b c
  | xor => exact BitVec.xor_assoc a b c
  | logicalAnd => simp only [reduceFunc]; grind
  | logicalOr => simp only [reduceFunc]; grind
  | max =>
      refine reading_inj ?_
      simp only [reduceFunc, less_iff]
      split_ifs <;> omega
  | min =>
      refine reading_inj ?_
      simp only [reduceFunc, less_iff]
      split_ifs <;> omega

/-- The results of the logical operations. -/
def Truth (a : platform.Value type) : Prop := a = 0 ∨ a = 1

variable {type} in
theorem truth_ite (condition : Prop) [Decidable condition] :
    platform.Truth type (if condition then 1 else 0) := by
  split
  · exact .inr rfl
  · exact .inl rfl

/-- A fold of truth values that starts with one is one. -/
theorem foldl_truth {f : platform.Value type → platform.Value type → platform.Value type}
    (keeps : ∀ a b, platform.Truth type (f a b)) {start : platform.Value type}
    (truth : platform.Truth type start) (items : List (platform.Value type)) :
    platform.Truth type (items.foldl f start) := by
  induction items generalizing start with
  | nil => exact truth
  | cons item items ih => exact ih (keeps start item)

theorem logicalAnd_one {a : platform.Value type} (truth : platform.Truth type a) :
    platform.reduceFunc type .logicalAnd a 1 = a := by
  rcases truth with rfl | rfl <;> simp only [reduceFunc] <;> grind

theorem logicalOr_zero {a : platform.Value type} (truth : platform.Truth type a) :
    platform.reduceFunc type .logicalOr a 0 = a := by
  rcases truth with rfl | rfl <;> simp only [reduceFunc] <;> grind

/-- A conjunction that starts false stays false. -/
theorem foldl_logicalAnd_zero (items : List (platform.Value type)) :
    items.foldl (platform.reduceFunc type .logicalAnd) 0 = 0 := by
  induction items with
  | nil => rfl
  | cons item items ih => simpa [reduceFunc] using ih

/-- The default value is neutral for the values that a fold can reach. -/
theorem reduceFunc_default {operation : Operation} (other : operation ≠ .sub)
    (items : List (platform.Value type)) :
    platform.reduceFunc type operation
        (items.foldl (platform.reduceFunc type operation) (platform.defaultValue type operation))
        (platform.defaultValue type operation) =
      items.foldl (platform.reduceFunc type operation) (platform.defaultValue type operation) := by
  cases operation with
  | sum => exact add_zero _
  | sub => exact absurd rfl other
  | prod => exact mul_one _
  | and => simp [reduceFunc, defaultValue]
  | or => exact BitVec.or_zero
  | xor => exact BitVec.xor_zero
  | logicalAnd =>
      rcases eq_or_ne type .longLong with rfl | inner
      · exact (foldl_logicalAnd_zero platform .longLong items).symm ▸ by
          simp [reduceFunc, defaultValue]
      · rw [defaultValue, if_neg inner]
        exact platform.logicalAnd_one type
          (platform.foldl_truth type (fun a b => platform.truth_ite _) (.inr rfl) items)
  | logicalOr =>
      exact platform.logicalOr_zero type
        (platform.foldl_truth type (fun a b => platform.truth_ite _) (.inl rfl) items)
  | max =>
      refine if_neg fun below => ?_
      exact absurd (minValue_le _) (Int.not_le.mpr ((less_iff _ _).mp below))
  | min =>
      refine if_neg fun below => ?_
      exact absurd (le_maxValue _) (Int.not_le.mpr ((less_iff _ _).mp below))

theorem foldLaw {operation : Operation} (other : operation ≠ .sub) :
    FoldLaw (platform.reduceFunc type operation) (platform.defaultValue type operation) :=
  ⟨platform.reduceFunc_assoc type other, platform.reduceFunc_default type other⟩

end Laws

end Platform

/-! ## Subtraction -/

section Subtraction

variable {G : Type} [AddCommGroup G] {Pool : Type v} (context : ReductionContext Pool)
  (array : ℕ → G) (numElems : ℕ)

/-- The sum of the array. -/
def total : G := ((List.range numElems).map array).sum

/-- The sum of the slice of a ULT. -/
def sliceTotal (i : ℕ) : G := (((slices context numElems).part i).map array).sum

/-- The sum of the slices of the ULTs whose index has an odd number of ones. -/
def oddTotal : G :=
  (((List.range context.numThreads).filter oddOnes).map (sliceTotal context array numElems)).sum

theorem foldl_sub (items : List G) (start : G) :
    items.foldl (· - ·) start = start - items.sum := by
  induction items generalizing start with
  | nil => simp
  | cons item items ih => rw [List.foldl_cons, ih, List.sum_cons, sub_sub]

theorem sum_sliceTotal :
    ((List.range context.numThreads).map (sliceTotal context array numElems)).sum =
      total array numElems := by
  rw [total, ← (slices context numElems).flatMap_part, List.map_flatMap, List.flatMap,
    List.sum_flatten, List.map_map]
  rfl

/-- The negated slices with alternating signs, without the alternation. -/
theorem sum_signed_neg (leaf : ℕ → G) (items : List ℕ) :
    (items.map (Parallel.signed (fun i => -leaf i) 0)).sum =
      -(items.map leaf).sum +
        (((items.filter oddOnes).map leaf).sum + ((items.filter oddOnes).map leaf).sum) := by
  induction items with
  | nil => simp
  | cons i items ih =>
      rw [List.map_cons, List.sum_cons, ih, List.map_cons, List.sum_cons, Parallel.signed,
        Nat.zero_add]
      cases parity : oddOnes i <;> simp only [List.filter_cons, parity, List.map_cons,
        List.sum_cons, if_true, Bool.false_eq_true, if_false] <;> abel

/-- **The tree gives the alternating sum**: the elements of the odd slices enter
with the other sign. -/
theorem treeValue_sub :
    Tree.treeValue context (· - ·) array numElems 0 =
      -total array numElems +
        (oddTotal context array numElems + oddTotal context array numElems) := by
  have enough : context.numThreads ≤ 2 ^ Tree.levels context.numThreads :=
    Nat.le_pow_clog one_lt_two _
  have leaves : (fun i => (((slices context numElems).part i).map array).foldl (· - ·) 0) =
      fun i => -sliceTotal context array numElems i := by
    funext i
    rw [foldl_sub, zero_sub, sliceTotal]
  rw [Tree.treeValue, leaves, combineTree_sub _ _ _ (Nat.dvd_zero _) context.numThreads_pos,
    Nat.sub_zero, Nat.min_eq_right enough, sum_signed_neg, sum_sliceTotal, oddTotal]

/-- **The mutex variant gives the sum**: the local results are negative, and are
subtracted. -/
theorem mutexValue_sub :
    Mutex.mutexValue context (· - ·) array numElems 0 = total array numElems := by
  have leaves : (fun i => (((slices context numElems).part i).map array).foldl (· - ·) 0) =
      fun i => -sliceTotal context array numElems i := by
    funext i
    rw [foldl_sub, zero_sub, sliceTotal]
  have negated := List.sum_neg ((List.range context.numThreads).map
    (sliceTotal context array numElems))
  rw [sum_sliceTotal, List.map_map] at negated
  rw [Mutex.mutexValue, leaves, foldl_sub, zero_sub]
  exact neg_eq_iff_eq_neg.mpr negated.symm

end Subtraction

/-! ## The results of all schedules -/

section Results

variable {α : Type} {Pool : Type v} {context : ReductionContext Pool} {reduceFunc : α → α → α}
  {array : ℕ → α} {numElems : ℕ} {defaultReductionValue value : α}

/-- What every schedule gives is unique. -/
theorem eq_of_ensures {numThreads : ℕ} {memory : Memory numThreads α}
    {code : Fin numThreads → Code (Action numThreads α)} {a b : α}
    (first : Ensures (exec reduceFunc) .free memory code fun final => final .result = some a)
    (second : Ensures (exec reduceFunc) .free memory code fun final => final .result = some b) :
    a = b := by
  obtain ⟨c, run, finished, result⟩ := first.exists_finished
  exact Option.some_inj.mp (result.symm.trans (second.result c run finished))

theorem ensures_tree_iff :
    (∀ memory, Ensures (exec reduceFunc) .free memory
      (fun i => (Tree.reduceCommon context array numElems defaultReductionValue i).body)
      fun final => final .result = some value) ↔
      Tree.treeValue context reduceFunc array numElems defaultReductionValue = value := by
  have ensures := fun memory : Memory context.numThreads α =>
    Tree.reduceCommon_ensures_treeValue reduceFunc array numElems defaultReductionValue memory
      (Policy.live_free _ _ _)
  constructor
  · intro result
    exact eq_of_ensures (ensures fun _ => none) (result fun _ => none)
  · rintro rfl
    exact ensures

theorem ensures_mutex_iff
    (swap : ∀ a b c, reduceFunc (reduceFunc a b) c = reduceFunc (reduceFunc a c) b) :
    (∀ memory, Ensures (exec reduceFunc) .free (Mutex.initResult defaultReductionValue memory)
      (fun i => (Mutex.reduceCommon context array numElems defaultReductionValue i).body)
      fun final => final .result = some value) ↔
      Mutex.mutexValue context reduceFunc array numElems defaultReductionValue = value := by
  have ensures := fun memory : Memory context.numThreads α =>
    Mutex.reduceCommon_ensures_mutexValue array numElems defaultReductionValue swap memory
      (Policy.live_free _ _ _)
  constructor
  · intro result
    exact eq_of_ensures (ensures fun _ => none) (result fun _ => none)
  · rintro rfl
    exact ensures

end Results

/-! ## Independence of the number of threads and of the variant -/

section Independence

variable {Pool : Type v} (platform : Platform) (operation : Operation) (type : IntType)

/-- Every schedule of `reduce_<op>_<type>` in the tree variant gives the value. -/
def TreeResult (context : ReductionContext Pool) (array : ℕ → platform.Value type)
    (numElems : ℕ) (value : platform.Value type) : Prop :=
  ∀ memory, Ensures (exec (platform.reduceFunc type operation)) .free memory
    (fun i => (Tree.reduceCommon context array numElems
      (platform.defaultValue type operation) i).body)
    fun final => final .result = some value

/-- Every schedule of `reduce_<op>_<type>` in the mutex variant gives the value. -/
def MutexResult (context : ReductionContext Pool) (array : ℕ → platform.Value type)
    (numElems : ℕ) (value : platform.Value type) : Prop :=
  ∀ memory, Ensures (exec (platform.reduceFunc type operation)) .free
    (Mutex.initResult (platform.defaultValue type operation) memory)
    (fun i => (Mutex.reduceCommon context array numElems
      (platform.defaultValue type operation) i).body)
    fun final => final .result = some value

variable {platform operation type}

theorem treeResult_iff {context : ReductionContext Pool} {array : ℕ → platform.Value type}
    {numElems : ℕ} {value : platform.Value type} :
    TreeResult platform operation type context array numElems value ↔
      Tree.treeValue context (platform.reduceFunc type operation) array numElems
        (platform.defaultValue type operation) = value :=
  ensures_tree_iff

theorem mutexResult_iff {context : ReductionContext Pool} {array : ℕ → platform.Value type}
    {numElems : ℕ} {value : platform.Value type} :
    MutexResult platform operation type context array numElems value ↔
      Mutex.mutexValue context (platform.reduceFunc type operation) array numElems
        (platform.defaultValue type operation) = value :=
  ensures_mutex_iff (platform.reduceFunc_swap type operation)

/-- The results of two contexts and of the two variants are one value, and for
subtraction this is the default minus all elements. -/
structure Independent (platform : Platform) (operation : Operation) (type : IntType)
    (first second : ReductionContext Pool) (array : ℕ → platform.Value type) (numElems : ℕ)
    (value : platform.Value type) : Prop where
  treeFirst : TreeResult platform operation type first array numElems value
  treeSecond : TreeResult platform operation type second array numElems value
  mutexFirst : MutexResult platform operation type first array numElems value
  mutexSecond : MutexResult platform operation type second array numElems value
  subtraction : operation = .sub →
    value = platform.defaultValue type operation - total array numElems

/-- Twice the sum of all elements is zero, and so is twice the sum of the odd
slices. -/
structure SubCondition (context : ReductionContext Pool) (array : ℕ → platform.Value type)
    (numElems : ℕ) : Prop where
  all : total array numElems + total array numElems = 0
  odd : oddTotal context array numElems + oddTotal context array numElems = 0

/-- Every operation except subtraction is independent. -/
theorem independent_of_ne (other : operation ≠ .sub) (first second : ReductionContext Pool)
    (array : ℕ → platform.Value type) (numElems : ℕ) :
    Independent platform operation type first second array numElems
      (((List.range numElems).map array).foldl (platform.reduceFunc type operation)
        (platform.defaultValue type operation)) := by
  have law := platform.foldLaw type other
  exact
    { treeFirst := treeResult_iff.mpr (Tree.treeValue_eq_foldl array numElems first law)
      treeSecond := treeResult_iff.mpr (Tree.treeValue_eq_foldl array numElems second law)
      mutexFirst := mutexResult_iff.mpr (Mutex.mutexValue_eq_foldl array numElems _ first law)
      mutexSecond := mutexResult_iff.mpr (Mutex.mutexValue_eq_foldl array numElems _ second law)
      subtraction := fun same => absurd same other }

theorem treeResult_sub_iff {context : ReductionContext Pool} {array : ℕ → platform.Value type}
    {numElems : ℕ} {value : platform.Value type} :
    TreeResult platform .sub type context array numElems value ↔
      -total array numElems +
        (oddTotal context array numElems + oddTotal context array numElems) = value := by
  rw [treeResult_iff, ← treeValue_sub]
  rfl

theorem mutexResult_sub_iff {context : ReductionContext Pool} {array : ℕ → platform.Value type}
    {numElems : ℕ} {value : platform.Value type} :
    MutexResult platform .sub type context array numElems value ↔
      total array numElems = value := by
  rw [mutexResult_iff, ← mutexValue_sub context]
  rfl

/-- Subtraction is independent exactly when its signs do not matter. -/
theorem independent_sub_iff {first second : ReductionContext Pool}
    {array : ℕ → platform.Value type} {numElems : ℕ} :
    (∃ value, Independent platform .sub type first second array numElems value) ↔
      SubCondition first array numElems ∧ SubCondition second array numElems := by
  have negated : platform.defaultValue type .sub - total array numElems = -total array numElems :=
    zero_sub _
  constructor
  · rintro ⟨value, independent⟩
    have sum := mutexResult_sub_iff.mp independent.mutexFirst
    have difference := independent.subtraction rfl
    have firstTree := treeResult_sub_iff.mp independent.treeFirst
    have secondTree := treeResult_sub_iff.mp independent.treeSecond
    rw [negated] at difference
    have all : total array numElems + total array numElems = 0 :=
      eq_neg_iff_add_eq_zero.mp (sum.trans difference)
    rw [difference] at firstTree secondTree
    exact ⟨⟨all, left_eq_add.mp firstTree.symm⟩, ⟨all, left_eq_add.mp secondTree.symm⟩⟩
  · rintro ⟨firstHolds, secondHolds⟩
    refine ⟨-total array numElems, ?_⟩
    have sum := eq_neg_iff_add_eq_zero.mpr firstHolds.all
    exact
      { treeFirst := treeResult_sub_iff.mpr (by rw [firstHolds.odd, add_zero])
        treeSecond := treeResult_sub_iff.mpr (by rw [secondHolds.odd, add_zero])
        mutexFirst := mutexResult_sub_iff.mpr sum
        mutexSecond := mutexResult_sub_iff.mpr sum
        subtraction := fun _ => negated.symm }

/-- **Independence of the number of threads and of the variant.**  It holds of
every operation except subtraction, and of subtraction exactly when twice the
sum of all elements and twice the sums of the odd slices vanish. -/
theorem independent_iff (platform : Platform) (operation : Operation) (type : IntType)
    (first second : ReductionContext Pool) (array : ℕ → platform.Value type) (numElems : ℕ) :
    (∃ value, Independent platform operation type first second array numElems value) ↔
      (operation = .sub →
        SubCondition first array numElems ∧ SubCondition second array numElems) := by
  rcases eq_or_ne operation .sub with rfl | other
  · exact ⟨fun independent _ => independent_sub_iff.mp independent,
      fun holds => independent_sub_iff.mpr (holds rfl)⟩
  · exact ⟨fun _ same => absurd same other,
      fun _ => ⟨_, independent_of_ne other first second array numElems⟩⟩

/-- The platform of the programs: 64-bit `long`, signed plain `char`. -/
def lp64 : Platform where
  width
    | .char => 8
    | .int => 32
    | .long | .longLong => 64
  charSigned := true

/-- Subtracting the array `1, 1` with one ULT and with two. -/
theorem not_independent_sub :
    ¬ ∃ value, Independent lp64 .sub .int (⟨1, id, 1, by decide, by decide⟩ : ReductionContext _)
      ⟨1, id, 2, by decide, by decide⟩ (fun _ => 1) 2 value := by
  rw [independent_sub_iff]
  rintro ⟨⟨all, -⟩, -⟩
  exact absurd all (by decide)

end Independence

end ArgobotsReduction.Reduction
