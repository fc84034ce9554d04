import Mathlib.Algebra.BigOperators.Intervals
import ArgobotsReduction.Containers.Loops
import ArgobotsReduction.Parallel.Rounds
import ArgobotsReduction.Parallel.Tiling

/-!
# A loop cut into slices

The turns of a loop change a state, and each of them contributes to a sum
(`gather`).  The sum may be taken along with the state (`loop_eq_gather`), or in
parts: when the range of the loop is cut into slices, and the slices run one after
the other, each with a sum of its own, the state at the end is that of the loop and
the sums of the slices add up to its sum (`Tiling.gather_slices`).
-/

set_option autoImplicit false

namespace Parallel

open Containers

universe u v w x

variable {ι : Type u} {V : Type v} {M : Type w} [AddCommMonoid M] (turn : ι → V → V × M)

/-- The state after a loop, and the sum of what its turns contribute. -/
def gather : List ι → V → V × M
  | [], v => (v, 0)
  | i :: items, v =>
      let first := turn i v
      let rest := gather items first.1
      (rest.1, first.2 + rest.2)

@[simp] theorem gather_nil (v : V) : gather turn [] v = (v, 0) := rfl

@[simp] theorem gather_cons (i : ι) (items : List ι) (v : V) :
    gather turn (i :: items) v =
      ((gather turn items (turn i v).1).1, (turn i v).2 + (gather turn items (turn i v).1).2) :=
  rfl

theorem gather_append (first second : List ι) (v : V) :
    gather turn (first ++ second) v =
      ((gather turn second (gather turn first v).1).1,
        (gather turn first v).2 + (gather turn second (gather turn first v).1).2) := by
  induction first generalizing v with
  | nil => simp
  | cons i first ih => simp [ih, add_assoc]

/-- A loop that changes the state and adds to a sum. -/
theorem loop_eq_gather (items : List ι) (v : V) (sum : M) :
    loop items (fun i state => ((turn i state.1).1, state.2 + (turn i state.1).2)) (v, sum) =
      ((gather turn items v).1, sum + (gather turn items v).2) := by
  induction items generalizing v sum with
  | nil => simp
  | cons i items ih => simp [ih, add_assoc]

/-- The state of a loop does not depend on the sum. -/
theorem gather_fst (items : List ι) (v : V) :
    (gather turn items v).1 = loop items (fun i v => (turn i v).1) v := by
  induction items generalizing v with
  | nil => rfl
  | cons i items ih => simp [ih]

/-- A loop that only adds up. -/
theorem gather_snd {f : ι → V → M} (items : List ι) (v : V) (sum : M) :
    sum + (gather (fun i v => (v, f i v)) items v).2 =
      loop items (fun i sum => sum + f i v) sum := by
  induction items generalizing sum with
  | nil => simp
  | cons i items ih => simp [← ih, gather_fst, add_assoc]

theorem gather_still {f : ι → V → M} (items : List ι) (v : V) :
    (gather (fun i v => (v, f i v)) items v).1 = v := by
  induction items with
  | nil => rfl
  | cons i items ih => simpa using ih

variable {turn} {A : Type x} {σ : Type x} {exec : A → σ → σ} {good : σ → Prop} {view : σ → V}

/-- The actions of the turns of a loop, with a running sum in the memory. -/
theorem execAll_gather {sum : σ → M} {actions : ι → List A} {items : List ι}
    (each : ∀ i ∈ items, ∀ m, good m → good (execAll exec (actions i) m) ∧
      view (execAll exec (actions i) m) = (turn i (view m)).1 ∧
      sum (execAll exec (actions i) m) = sum m + (turn i (view m)).2) {m : σ} (holds : good m) :
    good (execAll exec (items.flatMap actions) m) ∧
      view (execAll exec (items.flatMap actions) m) = (gather turn items (view m)).1 ∧
      sum (execAll exec (items.flatMap actions) m) = sum m + (gather turn items (view m)).2 := by
  induction items generalizing m with
  | nil => exact ⟨holds, rfl, by simp⟩
  | cons i items ih =>
      obtain ⟨kept, viewed, summed⟩ := each i List.mem_cons_self m holds
      obtain ⟨goodRest, viewRest, sumRest⟩ :=
        ih (fun j member => each j (List.mem_cons_of_mem _ member)) kept
      rw [List.flatMap_cons, execAll_append]
      refine ⟨goodRest, ?_, ?_⟩
      · rw [viewRest, viewed, gather_cons]
      · rw [sumRest, summed, viewed, gather_cons, add_assoc]

/-- A slice that clears its sum, takes the turns of its part of the loop, and stores
the sum. -/
theorem execAll_slice (ready : σ → Prop) (sum value : σ → M) {before after : List A}
    {actions : ι → List A} {items : List ι} {m : σ}
    (clear : ready (execAll exec before m) ∧ view (execAll exec before m) = view m ∧
      sum (execAll exec before m) = 0)
    (each : ∀ i ∈ items, ∀ m, ready m → ready (execAll exec (actions i) m) ∧
      view (execAll exec (actions i) m) = (turn i (view m)).1 ∧
      sum (execAll exec (actions i) m) = sum m + (turn i (view m)).2)
    (store : ∀ m, view (execAll exec after m) = view m ∧ value (execAll exec after m) = sum m) :
    view (execAll exec (before ++ items.flatMap actions ++ after) m) =
        (gather turn items (view m)).1 ∧
      value (execAll exec (before ++ items.flatMap actions ++ after) m) =
        (gather turn items (view m)).2 := by
  obtain ⟨isReady, viewed, cleared⟩ := clear
  obtain ⟨-, viewTurns, sumTurns⟩ := execAll_gather each isReady
  obtain ⟨viewStore, stored⟩ := store (execAll exec (items.flatMap actions) (execAll exec before m))
  rw [execAll_append, execAll_append]
  refine ⟨by rw [viewStore, viewTurns, viewed], ?_⟩
  rw [stored, sumTurns, cleared, viewed, zero_add]

/-- **The slices of a loop, one after the other.**  Each of them leaves its own sum
where the others do not write. -/
theorem Tiling.gather_slices {turn : ℕ → V → V × M} {parts total : ℕ}
    (tiling : Tiling parts total) {slice : ℕ → List A} {value : ℕ → σ → M}
    (own : ∀ i < parts, ∀ m, good m → good (execAll exec (slice i) m) ∧
      view (execAll exec (slice i) m) = (gather turn (tiling.part i) (view m)).1 ∧
      value i (execAll exec (slice i) m) = (gather turn (tiling.part i) (view m)).2)
    (others : ∀ i k, k ≠ i → ∀ m, value k (execAll exec (slice i) m) = value k m) {m : σ}
    (holds : good m) :
    let final := execAll exec ((List.range parts).flatMap slice) m
    good final ∧ view final = (gather turn (List.range total) (view m)).1 ∧
      ∑ i ∈ Finset.range parts, value i final = (gather turn (List.range total) (view m)).2 := by
  suffices upto : ∀ n ≤ parts,
      good (execAll exec ((List.range n).flatMap slice) m) ∧
        view (execAll exec ((List.range n).flatMap slice) m) =
          (gather turn (List.range (tiling.cut n)) (view m)).1 ∧
        ∑ i ∈ Finset.range n, value i (execAll exec ((List.range n).flatMap slice) m) =
          (gather turn (List.range (tiling.cut n)) (view m)).2 by
    simpa only [tiling.last] using upto parts le_rfl
  intro n within
  induction n with
  | zero => exact ⟨holds, by simp [tiling.first], by simp [tiling.first]⟩
  | succ n ih =>
      obtain ⟨kept, viewed, summed⟩ := ih (by omega)
      obtain ⟨goodNext, viewNext, sumNext⟩ := own n within _ kept
      rw [List.range_succ, List.flatMap_append, List.flatMap_cons, List.flatMap_nil,
        List.append_nil, execAll_append, tiling.range_cut_succ, gather_append]
      refine ⟨goodNext, by rw [viewNext, viewed], ?_⟩
      rw [Finset.sum_range_succ, sumNext, viewed, ← summed]
      congr 1
      refine Finset.sum_congr rfl fun i member => ?_
      exact others n i (Nat.ne_of_lt (Finset.mem_range.mp member)) _

end Parallel
