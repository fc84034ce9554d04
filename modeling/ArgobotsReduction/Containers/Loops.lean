import Mathlib.Algebra.BigOperators.Intervals
import Mathlib.Data.List.Nodup
import Mathlib.Data.List.Range
import Mathlib.Logic.Function.Basic
import Mathlib.Order.Interval.Finset.Nat

/-!
# Counting loops over arrays

A counting loop runs its body once for every index of a list, in order
(`loop`).  The index lists are `span` for natural bounds and `upto` for integer
ones, each from the lower bound up to, but not including, the upper.

The lemmas say what the usual loops leave in an array: independent stores
(`loop_store`), changes of every entry on its own (`loop_change`), running sums
(`loop_runningSum`) and tallies (`loop_tally`).
-/

set_option autoImplicit false

namespace Containers

universe u v w

variable {ι : Type u} {σ : Type v}

/-- The state after the body has run for every index in turn. -/
def loop (items : List ι) (body : ι → σ → σ) (s : σ) : σ :=
  items.foldl (fun s i => body i s) s

@[simp] theorem loop_nil (body : ι → σ → σ) (s : σ) : loop [] body s = s := rfl

@[simp] theorem loop_cons (i : ι) (items : List ι) (body : ι → σ → σ) (s : σ) :
    loop (i :: items) body s = loop items body (body i s) := rfl

theorem loop_append (first second : List ι) (body : ι → σ → σ) (s : σ) :
    loop (first ++ second) body s = loop second body (loop first body s) := by
  simp [loop]

/-- A nest of two loops is one loop over the pairs of indices. -/
theorem loop_flatMap {κ : Type w} (items : List ι) (inner : ι → List κ) (body : κ → σ → σ)
    (s : σ) :
    loop (items.flatMap inner) body s = loop items (fun i s => loop (inner i) body s) s := by
  simp [loop, List.foldl_flatMap]

theorem loop_map {κ : Type w} (items : List ι) (f : ι → κ) (body : κ → σ → σ) (s : σ) :
    loop (items.map f) body s = loop items (fun i s => body (f i) s) s := by
  simp [loop, List.foldl_map]

/-- What every turn keeps, the loop keeps. -/
theorem loop_keeps (good : σ → Prop) {items : List ι} {body : ι → σ → σ}
    (keeps : ∀ i ∈ items, ∀ s, good s → good (body i s)) {s : σ} (holds : good s) :
    good (loop items body s) := by
  induction items generalizing s with
  | nil => exact holds
  | cons i items ih =>
      exact ih (fun j member => keeps j (List.mem_cons_of_mem _ member))
        (keeps i List.mem_cons_self s holds)

/-- What one turn establishes and the others keep holds after the loop. -/
theorem loop_establishes (good : ι → σ → Prop) {items : List ι} {body : ι → σ → σ}
    (establish : ∀ i ∈ items, ∀ s, good i (body i s))
    (keep : ∀ j ∈ items, ∀ i, i ≠ j → ∀ s, good i s → good i (body j s)) {i : ι}
    (member : i ∈ items) (s : σ) : good i (loop items body s) := by
  induction items using List.reverseRecOn with
  | nil => cases member
  | append_singleton items j ih =>
      have last : j ∈ items ++ [j] := List.mem_append_right _ List.mem_cons_self
      rw [loop_append, loop_cons, loop_nil]
      by_cases here : i = j
      · exact here ▸ establish j last _
      · refine keep j last i here _ (ih (fun k inside => establish k (List.mem_append_left _ inside))
          (fun k inside => keep k (List.mem_append_left _ inside)) ?_)
        simpa [here] using member

/-- A part of the state on which the body works without the rest. -/
theorem loop_hom {τ : Type w} (part : σ → τ) {items : List ι} {body : ι → σ → σ}
    (partBody : ι → τ → τ) (hom : ∀ i ∈ items, ∀ s, part (body i s) = partBody i (part s))
    (s : σ) : part (loop items body s) = loop items partBody (part s) := by
  induction items generalizing s with
  | nil => rfl
  | cons i items ih =>
      rw [loop_cons, loop_cons, ih fun j member => hom j (List.mem_cons_of_mem _ member),
        hom i List.mem_cons_self]

theorem loop_add {M : Type*} [AddCommMonoid M] (f : ℕ → M) (n : ℕ) (x : M) :
    loop (List.range n) (fun i sum => sum + f i) x = x + ∑ i ∈ Finset.range n, f i := by
  induction n with
  | zero => simp
  | succ n ih =>
      rw [List.range_succ, loop_append, ih, loop_cons, loop_nil, Finset.sum_range_succ, add_assoc]

/-! ## Index ranges -/

/-- The indices from `first` up to, but not including, `last`. -/
def span (first last : ℕ) : List ℕ := List.range' first (last - first)

@[simp] theorem mem_span {first last k : ℕ} : k ∈ span first last ↔ first ≤ k ∧ k < last := by
  simp only [span, List.mem_range'_1]
  omega

theorem nodup_span (first last : ℕ) : (span first last).Nodup := List.nodup_range'

theorem span_eq_nil {first last : ℕ} (empty : last ≤ first) : span first last = [] := by
  simp [span, Nat.sub_eq_zero_of_le empty]

theorem span_succ {first last : ℕ} (nonempty : first ≤ last) :
    span first (last + 1) = span first last ++ [last] := by
  rw [span, span, Nat.succ_sub nonempty, List.range'_concat, Nat.one_mul,
    Nat.add_sub_cancel' nonempty]

/-- The integers from `first` up to, but not including, `last`. -/
def upto (first last : ℤ) : List ℤ :=
  (List.range (last - first).toNat).map fun i : ℕ => first + (i : ℤ)

@[simp] theorem mem_upto {first last k : ℤ} : k ∈ upto first last ↔ first ≤ k ∧ k < last := by
  simp only [upto, List.mem_map, List.mem_range]
  constructor
  · rintro ⟨i, below, rfl⟩
    omega
  · rintro ⟨lower, upper⟩
    exact ⟨(k - first).toNat, by omega, by omega⟩

theorem upto_eq_nil {first last : ℤ} (empty : last ≤ first) : upto first last = [] := by
  have none : (last - first).toNat = 0 := by omega
  simp [upto, none]

theorem upto_cons {first last : ℤ} (nonempty : first < last) :
    upto first last = first :: upto (first + 1) last := by
  obtain ⟨k, length⟩ : ∃ k, (last - first).toNat = k + 1 :=
    ⟨(last - first).toNat - 1, by omega⟩
  have shorter : (last - (first + 1)).toNat = k := by omega
  rw [upto, upto, length, shorter, List.range_succ_eq_map, List.map_cons, List.map_map]
  refine congrArg₂ _ (by simp) (List.map_congr_left fun i _ => ?_)
  simp only [Function.comp_apply, Nat.succ_eq_add_one]
  omega

/-- A search in an integer range finds the least index with the property. -/
theorem find?_upto {first last k : ℤ} {p : ℤ → Bool} :
    (upto first last).find? p = some k ↔
      first ≤ k ∧ k < last ∧ p k = true ∧ ∀ x, first ≤ x → x < k → p x = false := by
  rw [upto, List.find?_map, Option.map_eq_some_iff]
  constructor
  · rintro ⟨i, found, rfl⟩
    obtain ⟨holds, member, least⟩ := List.find?_range_eq_some.mp found
    have below := List.mem_range.mp member
    refine ⟨by omega, by omega, holds, fun x lower upper => ?_⟩
    have earlier := least (x - first).toNat (by omega)
    have same : first + ((x - first).toNat : ℤ) = x := by omega
    simp only [Function.comp_apply, same, Bool.not_eq_true'] at earlier
    exact earlier
  · rintro ⟨lower, upper, holds, least⟩
    have same : first + ((k - first).toNat : ℤ) = k := by omega
    refine ⟨(k - first).toNat, List.find?_range_eq_some.mpr ⟨?_, ?_, fun j before => ?_⟩, same⟩
    · change p (first + ((k - first).toNat : ℤ)) = true
      rw [same, holds]
    · exact List.mem_range.mpr (by omega)
    · simpa using least (first + j) (by omega) (by omega)

/-! ## What loops leave in an array -/

section Arrays

variable {κ : Type v} {α : Type w} [DecidableEq κ]

/-- An index no turn stores to keeps its value. -/
theorem loop_update_of_ne {items : List ι} (place : ι → κ) {value : ι → (κ → α) → α} {k : κ}
    (elsewhere : ∀ i ∈ items, k ≠ place i) (f : κ → α) :
    loop items (fun i f => Function.update f (place i) (value i f)) f k = f k := by
  induction items generalizing f with
  | nil => rfl
  | cons i items ih =>
      rw [loop_cons, ih fun j member => elsewhere j (List.mem_cons_of_mem _ member),
        Function.update_of_ne (elsewhere i List.mem_cons_self)]

/-- Stores that agree where they meet. -/
theorem loop_store {items : List ι} (place : ι → κ) {value : ι → α} {k : κ} {x : α}
    (agree : ∀ j ∈ items, place j = k → value j = x) {f : κ → α}
    (stored : (∃ j ∈ items, place j = k) ∨ f k = x) :
    loop items (fun i f => Function.update f (place i) (value i)) f k = x := by
  induction items generalizing f with
  | nil => simpa using stored
  | cons j items ih =>
      rw [loop_cons]
      refine ih (fun l member => agree l (List.mem_cons_of_mem _ member)) ?_
      by_cases here : place j = k
      · subst here
        exact .inr (by rw [Function.update_self, agree j List.mem_cons_self rfl])
      · rw [Function.update_of_ne (Ne.symm here)]
        exact stored.imp_left fun ⟨l, member, there⟩ =>
          ⟨l, (List.mem_cons.mp member).resolve_left fun same => here (same ▸ there), there⟩

/-- Stores to the places after the first ones. -/
theorem map_range_loop_store {n m : ℕ} {place : ℕ → ℕ} (after : ∀ i < m, place i = n + i)
    (value : ℕ → α) (f : ℕ → α) :
    (List.range (n + m)).map
        (loop (List.range m) (fun i f => Function.update f (place i) (value i)) f) =
      (List.range n).map f ++ (List.range m).map value := by
  rw [List.range_add, List.map_append, List.map_map]
  refine congrArg₂ _ (List.map_congr_left fun k member => ?_)
    (List.map_congr_left fun i member => ?_)
  · refine loop_update_of_ne place (fun i turn => ?_) f
    rw [after i (List.mem_range.mp turn)]
    have := List.mem_range.mp member
    omega
  · refine loop_store place (fun j turn same => ?_)
      (.inl ⟨i, member, after i (List.mem_range.mp member)⟩)
    rw [after j (List.mem_range.mp turn)] at same
    rw [Nat.add_left_cancel same]

/-- Every entry changed on its own. -/
theorem loop_change {items : List κ} (nodup : items.Nodup) (change : κ → α → α) (f : κ → α)
    {k : κ} (member : k ∈ items) :
    loop items (fun i f => Function.update f i (change i (f i))) f k = change k (f k) := by
  obtain ⟨before, after, rfl⟩ := List.append_of_mem member
  have notIn : k ∉ before ++ after := (List.nodup_cons.mp (List.nodup_middle.mp nodup)).1
  have kept : ∀ part : List κ, (∀ i ∈ part, i ∈ before ++ after) → ∀ f : κ → α,
      loop part (fun i f => Function.update f i (change i (f i))) f k = f k :=
    fun part inside f =>
      loop_update_of_ne id (fun i member (same : k = i) => notIn (same ▸ inside i member)) f
  rw [loop_append, loop_cons, kept after fun i => List.mem_append_right _, Function.update_self,
    kept before fun i => List.mem_append_left _]

/-- A tally: the amounts of the items that fall on an index are added to it. -/
theorem loop_tally {M : Type*} [AddMonoid M] {items : List ι} (place : ι → κ) (amount : ι → M)
    (f : κ → M) (k : κ) :
    loop items (fun i f => Function.update f (place i) (f (place i) + amount i)) f k =
      f k + ((items.filter fun i => decide (place i = k)).map amount).sum := by
  induction items generalizing f with
  | nil => simp
  | cons i items ih =>
      rw [loop_cons, ih]
      by_cases here : place i = k
      · subst here
        simp [add_assoc]
      · rw [Function.update_of_ne (Ne.symm here), List.filter_cons_of_neg (by simpa using here)]

end Arrays

/-- Turns that do nothing can be left out. -/
theorem loop_filter (items : List ι) (p : ι → Prop) [DecidablePred p] (body : ι → σ → σ) (s : σ) :
    loop items (fun i s => if p i then body i s else s) s =
      loop (items.filter fun i => decide (p i)) body s := by
  induction items generalizing s with
  | nil => rfl
  | cons i items ih =>
      by_cases taken : p i
      · rw [loop_cons, ih, List.filter_cons_of_pos (by simpa using taken), loop_cons, if_pos taken]
      · rw [loop_cons, ih, List.filter_cons_of_neg (by simpa using taken), if_neg taken]

/-- Running sums: every entry of the range is added to by the one before it. -/
theorem loop_runningSum {M : Type*} [Add M] {first last : ℕ} (f sums : ℕ → M)
    (start : f first = sums first)
    (next : ∀ k, first ≤ k → k + 1 < last → sums (k + 1) = f (k + 1) + sums k) {k : ℕ}
    (lower : first ≤ k) (upper : k < last) :
    loop (span (first + 1) last) (fun j f => Function.update f j (f j + f (j - 1))) f k =
      sums k := by
  suffices upTo : ∀ reached, first < reached → reached ≤ last →
      (∀ k, first ≤ k → k < reached → loop (span (first + 1) reached)
        (fun j f => Function.update f j (f j + f (j - 1))) f k = sums k) from
    upTo last (by omega) le_rfl k lower upper
  intro reached
  induction reached with
  | zero => intro impossible; omega
  | succ reached ih =>
      intro above within k lower below
      rcases Nat.eq_or_lt_of_le (Nat.le_of_lt_succ above) with base | further
      · obtain rfl : k = first := by omega
        rw [span_eq_nil (by omega), loop_nil, start]
      · have before := ih further (by omega)
        rw [span_succ further, loop_append, loop_cons, loop_nil]
        rcases Nat.eq_or_lt_of_le (Nat.le_of_lt_succ below) with here | earlier
        · subst here
          obtain ⟨j, rfl⟩ : ∃ j, k = j + 1 := ⟨k - 1, by omega⟩
          rw [Function.update_self, Nat.add_sub_cancel, before j (by omega) (Nat.lt_succ_self j),
            next j (by omega) (by omega)]
          congr 1
          exact loop_update_of_ne id (fun i member => (mem_span.mp member).2.ne') f
        · rw [Function.update_of_ne (ne_of_lt earlier), before k lower earlier]

end Containers
