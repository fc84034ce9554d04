import ArgobotsReduction.Containers.Loops
import ArgobotsReduction.Parallel.Rounds
import ArgobotsReduction.Parallel.Tiling

/-!
# A loop that looks for the largest value, cut into slices

The turns of a loop change a state and raise a value to the largest that they find
(`Raises`).  When the range of the loop is cut into slices, and the slices run one after the
other, each with a value of its own that starts at the bottom, the state at the end is that of
the loop, and the largest of the slices' values is the value of the loop
(`Tiling.largest_slices`).  When the values are compared from a floor on, the floor remains if
it lies above them.
-/

set_option autoImplicit false

namespace Parallel

open Containers

universe u v w x

variable {ι : Type u} {V : Type v} {E : Type w} [LinearOrder E]

/-- A step that raises a value.  What else it does, and how far it raises, do not depend on
that value. -/
def Raises (body : V × E → V × E) : Prop :=
  ∀ v e f, body (v, max e f) = ((body (v, e)).1, max (body (v, e)).2 f)

theorem raises_of_max (turn : V → V) (value : V → E) :
    Raises fun s => (turn s.1, max (value s.1) s.2) := by
  intro v e f
  exact congrArg _ (max_assoc _ _ _).symm

/-- A loop of steps that raise a value raises it. -/
theorem Raises.loop {items : List ι} {body : ι → V × E → V × E} (each : ∀ i, Raises (body i)) :
    Raises (loop items body) := by
  induction items with
  | nil =>
      intro v e f
      rfl
  | cons i items ih =>
      intro v e f
      rw [loop_cons, each i, ih]
      rfl

namespace Raises

variable {body : V × E → V × E}

theorem le (raises : Raises body) (v : V) (e : E) : e ≤ (body (v, e)).2 := by
  have same := congrArg Prod.snd (raises v e e)
  rw [max_self] at same
  rw [same]
  exact le_max_right _ _

/-- A start above the bottom may be left for later. -/
theorem of_le (raises : Raises body) {v : V} {bottom e : E} (above : bottom ≤ e) :
    body (v, e) = ((body (v, bottom)).1, max (body (v, bottom)).2 e) := by
  rw [← raises, max_eq_right above]

end Raises

/-! ## Folds of the maximum -/

theorem le_foldl_max (items : List E) (e : E) : e ≤ items.foldl max e := by
  have same : items.foldl max (max e e) = max e (items.foldl max e) := List.foldl_assoc
  rw [max_self] at same
  rw [same]
  exact le_max_left _ _

theorem le_foldl_max_of_mem {items : List E} {e : E} (member : e ∈ items) (start : E) :
    e ≤ items.foldl max start := by
  induction items generalizing start with
  | nil => cases member
  | cons first items ih =>
      rcases List.mem_cons.mp member with rfl | later
      · exact (le_max_right start e).trans (le_foldl_max items _)
      · exact ih later _

/-- The bottom does not matter when an element is not below it. -/
theorem foldl_max_eq_max {items : List E} {bottom : E} (above : ∃ e ∈ items, bottom ≤ e)
    (floor : E) : items.foldl max floor = max floor (items.foldl max bottom) := by
  obtain ⟨e, member, atLeast⟩ := above
  calc
    items.foldl max floor = max bottom (items.foldl max floor) :=
      (max_eq_right (atLeast.trans (le_foldl_max_of_mem member floor))).symm
    _ = items.foldl max (max bottom floor) := List.foldl_assoc.symm
    _ = items.foldl max (max floor bottom) := by rw [max_comm]
    _ = max floor (items.foldl max bottom) := List.foldl_assoc

/-! ## The slices -/

variable {A : Type x} {σ : Type x} {exec : A → σ → σ} {view : σ → V}

/-- The actions of the turns of a loop, one after the other. -/
theorem execAll_loop {τ : Type v} {view : σ → τ} {items : List ι} {actions : ι → List A}
    {body : ι → τ → τ} (each : ∀ i m, view (execAll exec (actions i) m) = body i (view m)) (m : σ) :
    view (execAll exec (items.flatMap actions) m) = loop items body (view m) := by
  induction items generalizing m with
  | nil => rfl
  | cons i items ih => rw [List.flatMap_cons, execAll_append, ih, each, loop_cons]

/-- **The slices of a loop, one after the other.**  Each of them starts at the bottom, and
leaves the largest value it finds where the others do not write. -/
theorem Tiling.largest_slices {body : ℕ → V × E → V × E} (raises : ∀ i, Raises (body i))
    {parts total : ℕ} (tiling : Tiling parts total) (nonempty : 0 < parts) (bottom : E)
    {slice : ℕ → List A} {value : ℕ → σ → E}
    (own : ∀ i < parts, ∀ m,
      (view (execAll exec (slice i) m), value i (execAll exec (slice i) m)) =
        loop (tiling.part i) body (view m, bottom))
    (others : ∀ i k, k ≠ i → ∀ m, value k (execAll exec (slice i) m) = value k m) (m : σ) :
    let final := execAll exec ((List.range parts).flatMap slice) m
    let whole := loop (List.range total) body (view m, bottom)
    view final = whole.1 ∧
      ∀ floor, ((List.range parts).map fun i => value i final).foldl max floor =
        max floor whole.2 := by
  suffices upto : ∀ n ≤ parts,
      let now := execAll exec ((List.range n).flatMap slice) m
      let sofar := loop (List.range (tiling.cut n)) body (view m, bottom)
      view now = sofar.1 ∧ (∀ i < n, bottom ≤ value i now) ∧
        ((List.range n).map fun i => value i now).foldl max bottom = sofar.2 by
    obtain ⟨viewed, above, largest⟩ := upto parts le_rfl
    simp only [tiling.last] at viewed largest
    refine ⟨viewed, fun floor => ?_⟩
    rw [← largest]
    exact foldl_max_eq_max
      ⟨_, List.mem_map.mpr ⟨0, List.mem_range.mpr nonempty, rfl⟩, above 0 nonempty⟩ floor
  intro n within
  induction n with
  | zero => exact ⟨by simp [tiling.first], nofun, by simp [tiling.first]⟩
  | succ n ih =>
      obtain ⟨viewed, above, largest⟩ := ih (by omega)
      have next := own n within (execAll exec ((List.range n).flatMap slice) m)
      simp only [List.range_succ (n := n), List.flatMap_append, List.flatMap_cons,
        List.flatMap_nil, List.append_nil, execAll_append, List.map_append, List.map_cons,
        List.map_nil, List.foldl_append, List.foldl_cons, List.foldl_nil, tiling.range_cut_succ,
        loop_append]
      have atLeast : bottom ≤ (loop (List.range (tiling.cut n)) body (view m, bottom)).2 :=
        (Raises.loop raises).le _ _
      generalize loop (List.range (tiling.cut n)) body (view m, bottom) = sofar at *
      obtain ⟨v, e⟩ := sofar
      -- the loop over the next part starts where the parts before it have ended
      simp only at viewed atLeast largest
      rw [(Raises.loop raises).of_le atLeast, ← viewed, ← next]
      have same : ∀ i ∈ List.range n, value i (execAll exec (slice n)
          (execAll exec ((List.range n).flatMap slice) m)) =
            value i (execAll exec ((List.range n).flatMap slice) m) := fun i member =>
        others n i (Nat.ne_of_lt (List.mem_range.mp member)) _
      refine ⟨rfl, fun i before => ?_, ?_⟩
      · rcases Nat.lt_succ_iff_lt_or_eq.mp before with earlier | rfl
        · rw [same i (List.mem_range.mpr earlier)]
          exact above i earlier
        · have raised := congrArg Prod.snd next
          simp only at raised
          rw [raised]
          exact (Raises.loop raises).le _ _
      · rw [List.map_congr_left same, largest, max_comm]

end Parallel
