import Mathlib.Algebra.BigOperators.Intervals
import Mathlib.Data.Int.ConditionallyCompleteOrder
import Mathlib.Data.List.Find
import Mathlib.Tactic.Linarith
import ArgobotsReduction.ConjugateGradient.Sparse

/-!
# The rows of the matrix

The elements that `sparse` sums up are known from the generated lists alone
(`elements`), and every row of the matrix depends only on its own
(`Problem.rowElements`).  A row has as many positions as elements
(`Problem.rowStart`), so it always has room for the next one, and the internal
error of `sparse` does not occur (`Filled.add`).  What the positions of a row
hold in the end (`Problem.finalRow`) does not depend on who fills them, nor on what
lies around them (`addElement_congr`, `addElement_frame`).
-/

set_option autoImplicit false

namespace ArgobotsReduction.ConjugateGradient.Sparse

open Containers

variable {R : Type}

/-- One element summed into the matrix. -/
structure Element (R : Type) where
  row : ℕ
  col : ℕ
  value : R

/-! ## Summing one element -/

/-- One turn of the loop on `kk`, position by position. -/
theorem moveRight_eq (k : ℤ) (w : Work R) :
    moveRight k w =
      { w with
        v := fun x => if x = k + 1 ∧ -1 < w.iv k then w.v k else w.v x
        iv := fun x => if x = k + 1 ∧ -1 < w.iv k then w.iv k else w.iv x } := by
  unfold moveRight
  by_cases occupied : w.iv k > -1
  · rw [if_pos occupied]
    congr 1 <;> funext x <;> rcases eq_or_ne x (k + 1) with rfl | other
    · rw [Function.update_self, if_pos ⟨rfl, occupied⟩]
    · rw [Function.update_of_ne other, if_neg fun both => other both.1]
    · rw [Function.update_self, if_pos ⟨rfl, occupied⟩]
    · rw [Function.update_of_ne other, if_neg fun both => other both.1]
  · rw [if_neg occupied]
    simp [show ¬ -1 < w.iv k from occupied]

/-- The loop on `kk` moves the occupied positions one to the right. -/
theorem makeRoom_eq (k stop : ℤ) (w : Work R) :
    makeRoom k stop w =
      { w with
        v := fun x => if k < x ∧ x < stop ∧ -1 < w.iv (x - 1) then w.v (x - 1) else w.v x
        iv := fun x => if k < x ∧ x < stop ∧ -1 < w.iv (x - 1) then w.iv (x - 1) else w.iv x } := by
  obtain ⟨len, length⟩ : ∃ len : ℕ, (stop - 1 - k).toNat = len := ⟨_, rfl⟩
  induction len generalizing k with
  | zero =>
      have empty : upto k (stop - 1) = [] := upto_eq_nil (by omega)
      have never : ∀ x, ¬ (k < x ∧ x < stop ∧ -1 < w.iv (x - 1)) := fun x => by omega
      simp [makeRoom, empty, never]
  | succ len ih =>
      have split : makeRoom k stop w = moveRight k (makeRoom (k + 1) stop w) := by
        rw [makeRoom, upto_cons (by omega), List.reverse_cons, loop_append]
        rfl
      have below : k + 1 < stop := by omega
      have beyond : ¬ k + 1 < k := by omega
      rw [split, moveRight_eq, ih (k + 1) (by omega)]
      congr 1 <;> funext x <;> rcases eq_or_ne x (k + 1) with rfl | other
      · simp [below, beyond]
      · simp [other, show k + 1 < x ↔ k < x by omega]
      · simp [below, beyond]
      · simp [other, show k + 1 < x ↔ k < x by omega]

theorem slot_eq_some {first stop k : ℤ} {jcol : ℕ} {iv : ℤ → ℤ} :
    slot first stop jcol iv = some k ↔
      first ≤ k ∧ k < stop ∧ (iv k > jcol ∨ iv k = -1 ∨ iv k = jcol) ∧
        ∀ x, first ≤ x → x < k → ¬ (iv x > jcol ∨ iv x = -1 ∨ iv x = jcol) := by
  simp [slot, find?_upto]

theorem slot_congr {first stop : ℤ} {jcol : ℕ} {iv iv' : ℤ → ℤ}
    (same : ∀ k, first ≤ k → k < stop → iv k = iv' k) :
    slot first stop jcol iv = slot first stop jcol iv' :=
  List.find?_congr fun k member => by
    rw [mem_upto] at member
    rw [same k member.1 member.2]

/-! ## Rows of a workspace -/

section SameRow

variable {first stop : ℤ} {j : ℕ} {w w' : Work R}

/-- What summing into row `j` leaves as it was. -/
structure OutsideRow (first stop : ℤ) (j : ℕ) (w w' : Work R) : Prop where
  v : ∀ k, ¬ (first ≤ k ∧ k < stop) → w'.v k = w.v k
  iv : ∀ k, ¬ (first ≤ k ∧ k < stop) → w'.iv k = w.iv k
  nzloc : ∀ i, i ≠ j → w'.nzloc i = w.nzloc i

/-- Two workspaces that hold the same row. -/
structure SameRow (first stop : ℤ) (j : ℕ) (w w' : Work R) : Prop where
  v : ∀ k, first ≤ k → k < stop → w.v k = w'.v k
  iv : ∀ k, first ≤ k → k < stop → w.iv k = w'.iv k
  nzloc : w.nzloc j = w'.nzloc j

theorem SameRow.refl (first stop : ℤ) (j : ℕ) (w : Work R) : SameRow first stop j w w :=
  ⟨fun _ _ _ => rfl, fun _ _ _ => rfl, rfl⟩

theorem SameRow.symm (same : SameRow first stop j w w') : SameRow first stop j w' w :=
  ⟨fun k lower upper => (same.v k lower upper).symm,
    fun k lower upper => (same.iv k lower upper).symm, same.nzloc.symm⟩

theorem SameRow.trans {w'' : Work R} (left : SameRow first stop j w w')
    (right : SameRow first stop j w' w'') : SameRow first stop j w w'' :=
  ⟨fun k lower upper => (left.v k lower upper).trans (right.v k lower upper),
    fun k lower upper => (left.iv k lower upper).trans (right.iv k lower upper),
    left.nzloc.trans right.nzloc⟩

/-- Summing into another row leaves a row as it was. -/
theorem OutsideRow.sameRow {first' stop' : ℤ} {i : ℕ} (outside : OutsideRow first stop j w w')
    (apart : stop ≤ first' ∨ stop' ≤ first) (other : i ≠ j) : SameRow first' stop' i w' w :=
  ⟨fun k lower upper => outside.v k (by omega), fun k lower upper => outside.iv k (by omega),
    outside.nzloc i other⟩

end SameRow

/-- A row after the elements `done`, with the columns `iv` and the number
`duplicates`: the first `used` positions hold one column each, the others are
empty, and every element that did not take a position of its own is a duplicate. -/
structure Filled (first stop : ℤ) (done : List (Element R)) (used : ℕ) (iv : ℤ → ℤ)
    (duplicates : ℤ) : Prop where
  counted : duplicates + used = done.length
  nonneg : 0 ≤ duplicates
  occupied : ∀ k, first ≤ k → k < stop → k < first + used → ∃ e ∈ done, iv k = e.col
  empty : ∀ k, first ≤ k → k < stop → first + used ≤ k → iv k = -1
  distinct : (done.map Element.col).Nodup → duplicates = 0

section Filled

variable {first stop : ℤ} {done : List (Element R)} {used : ℕ} {iv : ℤ → ℤ} {duplicates : ℤ}

theorem Filled.start (empty : ∀ k, first ≤ k → k < stop → iv k = -1) :
    Filled (R := R) first stop [] 0 iv 0 :=
  ⟨by simp, le_rfl, fun k lower _ below => by simp at below; omega,
    fun k lower upper _ => empty k lower upper, fun _ => rfl⟩

/-- A row with fewer elements than positions has a place for the next one. -/
theorem Filled.exists_slot (filled : Filled first stop done used iv duplicates)
    (room : first + done.length < stop) (jcol : ℕ) :
    ∃ k, slot first stop jcol iv = some k ∧ k ≤ first + used := by
  have counted := filled.counted
  have nonneg := filled.nonneg
  have free : iv (first + used) = -1 := filled.empty _ (by omega) (by omega) le_rfl
  cases found : slot first stop jcol iv with
  | none =>
      have never := List.find?_eq_none.mp found (first + used) (mem_upto.mpr ⟨by omega, by omega⟩)
      simp [free] at never
  | some k =>
      refine ⟨k, rfl, ?_⟩
      obtain ⟨-, -, -, least⟩ := slot_eq_some.mp found
      by_contra beyond
      exact least (first + used) (by omega) (by omega) (.inr (.inl free))

end Filled

section Add

variable [Zero R] [Add R] {j : ℕ} {first stop : ℤ} {jcol : ℕ} {va : R} {k : ℤ} {w w' : Work R}

/-- An element in front of a larger column is inserted. -/
theorem addAt_insert (larger : w.iv k > jcol) :
    addAt j stop jcol va k w =
      { w with
        v := Function.update (fun x =>
          if k < x ∧ x < stop ∧ -1 < w.iv (x - 1) then w.v (x - 1) else w.v x) k (0 + va)
        iv := Function.update (fun x =>
          if k < x ∧ x < stop ∧ -1 < w.iv (x - 1) then w.iv (x - 1) else w.iv x) k jcol } := by
  simp [addAt, larger, makeRoom_eq]

/-- An element takes an empty position. -/
theorem addAt_empty (empty : w.iv k = -1) :
    addAt j stop jcol va k w =
      { w with
        v := Function.update w.v k (w.v k + va)
        iv := Function.update w.iv k jcol } := by
  have notLarger : ¬ (jcol : ℤ) < -1 := by omega
  simp [addAt, empty, notLarger]

/-- An element is added to the one in its column. -/
theorem addAt_duplicate (same : w.iv k = jcol) :
    addAt j stop jcol va k w =
      { w with
        v := Function.update w.v k (w.v k + va)
        nzloc := Function.update w.nzloc j (w.nzloc j + 1) } := by
  have occupied : ¬ (jcol : ℤ) = -1 := by omega
  simp [addAt, same, occupied]

/-- **Summing an element touches only its row.** -/
theorem addElement_frame (added : addElement j first stop jcol va w = some w') :
    OutsideRow first stop j w w' := by
  obtain ⟨k, found, rfl⟩ := Option.map_eq_some_iff.mp added
  obtain ⟨lower, upper, broken, -⟩ := slot_eq_some.mp found
  have apart : ∀ x, ¬ (first ≤ x ∧ x < stop) → x ≠ k := fun x outside same =>
    outside (same ▸ ⟨lower, upper⟩)
  have notMoved : ∀ x, ¬ (first ≤ x ∧ x < stop) →
      ¬ (k < x ∧ x < stop ∧ -1 < w.iv (x - 1)) := fun x outside moved =>
    outside ⟨by omega, moved.2.1⟩
  rcases broken with larger | empty | same
  · rw [addAt_insert larger]
    exact ⟨fun x outside => by simp [Function.update_of_ne (apart x outside), notMoved x outside],
      fun x outside => by simp [Function.update_of_ne (apart x outside), notMoved x outside],
      fun _ _ => rfl⟩
  · rw [addAt_empty empty]
    exact ⟨fun x outside => Function.update_of_ne (apart x outside) _ _,
      fun x outside => Function.update_of_ne (apart x outside) _ _, fun _ _ => rfl⟩
  · rw [addAt_duplicate same]
    exact ⟨fun x outside => Function.update_of_ne (apart x outside) _ _, fun _ _ => rfl,
      fun i other => Function.update_of_ne other _ _⟩

/-- **What summing an element makes of a row depends only on the row.** -/
theorem addElement_congr (same : SameRow first stop j w w') {z : Work R}
    (added : addElement j first stop jcol va w = some z) :
    ∃ z', addElement j first stop jcol va w' = some z' ∧ SameRow first stop j z z' := by
  obtain ⟨k, found, rfl⟩ := Option.map_eq_some_iff.mp added
  have found' : slot first stop jcol w'.iv = some k := slot_congr same.iv ▸ found
  refine ⟨_, Option.map_eq_some_iff.mpr ⟨k, found', rfl⟩, ?_⟩
  obtain ⟨lower, upper, broken, -⟩ := slot_eq_some.mp found
  have here : w.iv k = w'.iv k := same.iv k lower upper
  rcases broken with larger | empty | duplicate
  · have before : ∀ x, k < x ∧ x < stop → w.iv (x - 1) = w'.iv (x - 1) ∧
        w.v (x - 1) = w'.v (x - 1) := fun x moved =>
      ⟨same.iv _ (by omega) (by omega), same.v _ (by omega) (by omega)⟩
    rw [addAt_insert larger, addAt_insert (here ▸ larger)]
    refine ⟨fun x low high => ?_, fun x low high => ?_, same.nzloc⟩
    · rcases eq_or_ne x k with rfl | other
      · simp
      · simp only [Function.update_of_ne other]
        by_cases moved : k < x ∧ x < stop
        · simp [moved, before x moved, same.v x low high]
        · simp [← and_assoc, moved, same.v x low high]
    · rcases eq_or_ne x k with rfl | other
      · simp
      · simp only [Function.update_of_ne other]
        by_cases moved : k < x ∧ x < stop
        · simp [moved, before x moved, same.iv x low high]
        · simp [← and_assoc, moved, same.iv x low high]
  · rw [addAt_empty empty, addAt_empty (here ▸ empty)]
    refine ⟨fun x low high => ?_, fun x low high => ?_, same.nzloc⟩
    · rcases eq_or_ne x k with rfl | other
      · simp [same.v x low high]
      · simp [Function.update_of_ne other, same.v x low high]
    · rcases eq_or_ne x k with rfl | other
      · simp
      · simp [Function.update_of_ne other, same.iv x low high]
  · rw [addAt_duplicate duplicate, addAt_duplicate (here ▸ duplicate)]
    refine ⟨fun x low high => ?_, same.iv, by simp [same.nzloc]⟩
    rcases eq_or_ne x k with rfl | other
    · simp [same.v x low high]
    · simp [Function.update_of_ne other, same.v x low high]

/-- **A row with fewer elements than positions takes the next one.** -/
theorem Filled.add {done : List (Element R)} {used : ℕ}
    (filled : Filled first stop done used w.iv (w.nzloc j)) (room : first + done.length < stop)
    (e : Element R) :
    ∃ w' used', addElement j first stop e.col e.value w = some w' ∧
      Filled first stop (done ++ [e]) used' w'.iv (w'.nzloc j) := by
  obtain ⟨k, found, near⟩ := filled.exists_slot room e.col
  obtain ⟨lower, upper, broken, -⟩ := slot_eq_some.mp found
  have counted := filled.counted
  have longer : ((done ++ [e]).length : ℤ) = done.length + 1 := by simp
  have earlier : ((done ++ [e]).map Element.col).Nodup → (done.map Element.col).Nodup := by
    rw [List.map_append]
    exact List.Nodup.of_append_left
  have kept : ∀ x, first ≤ x → x < stop → x < first + used → ∃ e' ∈ done ++ [e],
      w.iv x = e'.col := fun x low high below => by
    obtain ⟨e', member, same⟩ := filled.occupied x low high below
    exact ⟨e', List.mem_append_left _ member, same⟩
  have last : e ∈ done ++ [e] := List.mem_append_right _ List.mem_cons_self
  rcases broken with larger | empty | duplicate
  · have inside : k < first + used := by
      by_contra beyond
      have free := filled.empty k lower upper (by omega)
      omega
    refine ⟨_, used + 1, Option.map_eq_some_iff.mpr ⟨k, found, rfl⟩, ?_⟩
    rw [addAt_insert larger]
    dsimp only
    refine ⟨by omega, filled.nonneg, fun x low high below => ?_,
      fun x low high beyond => ?_, fun distinct => filled.distinct (earlier distinct)⟩
    · rcases lt_trichotomy x k with before | rfl | after
      · rw [Function.update_of_ne before.ne, if_neg (by omega)]
        exact kept x low high (by omega)
      · exact ⟨e, last, Function.update_self ..⟩
      · -- what stands here now stood one position to the left
        obtain ⟨e', member, same⟩ :=
          kept (x - 1) (by omega) (by omega) (by push_cast at below; omega)
        rw [Function.update_of_ne after.ne', if_pos ⟨after, high, by omega⟩]
        exact ⟨e', member, same⟩
    · have free := filled.empty (x - 1) (by push_cast at beyond; omega) (by omega)
        (by push_cast at beyond; omega)
      push_cast at beyond
      rw [Function.update_of_ne (by omega), if_neg (by omega)]
      exact filled.empty x low high (by omega)
  · have here : k = first + used := by
      by_contra other
      obtain ⟨e', -, same⟩ := filled.occupied k lower upper (by omega)
      omega
    refine ⟨_, used + 1, Option.map_eq_some_iff.mpr ⟨k, found, rfl⟩, ?_⟩
    rw [addAt_empty empty]
    dsimp only
    refine ⟨by omega, filled.nonneg, fun x low high below => ?_,
      fun x low high beyond => ?_, fun distinct => filled.distinct (earlier distinct)⟩
    · rcases eq_or_ne x k with rfl | other
      · exact ⟨e, last, Function.update_self ..⟩
      · rw [Function.update_of_ne other]
        exact kept x low high (by push_cast at below; omega)
    · push_cast at beyond
      rw [Function.update_of_ne (by omega)]
      exact filled.empty x low high (by omega)
  · have inside : k < first + used := by
      by_contra beyond
      have free := filled.empty k lower upper (by omega)
      omega
    refine ⟨_, used, Option.map_eq_some_iff.mpr ⟨k, found, rfl⟩, ?_⟩
    rw [addAt_duplicate duplicate]
    dsimp only
    rw [Function.update_self]
    have nonneg := filled.nonneg
    refine ⟨by omega, by omega, kept, filled.empty, fun distinct => ?_⟩
    obtain ⟨e', member, same⟩ := filled.occupied k lower upper inside
    rw [List.map_append, List.map_singleton] at distinct
    have equal : e'.col = e.col := by omega
    exact absurd (List.mem_map.mpr ⟨e', member, equal⟩)
      fun twice => List.disjoint_of_nodup_append distinct twice List.mem_cons_self

/-- Summing a list of elements with given row pointers. -/
def addAll (rowstr : ℕ → ℤ) (items : List (Element R)) (w : Work R) : Option (Work R) :=
  items.foldlM
    (fun w e => addElement e.row (rowstr e.row) (rowstr (e.row + 1)) e.col e.value w) w

theorem addAll_append (rowstr : ℕ → ℤ) (first second : List (Element R)) (w : Work R) :
    addAll rowstr (first ++ second) w = (addAll rowstr first w).bind (addAll rowstr second) :=
  List.foldlM_append

theorem addAll_congr {rowstr rowstr' : ℕ → ℤ} {items : List (Element R)}
    (same : ∀ e ∈ items, rowstr e.row = rowstr' e.row ∧ rowstr (e.row + 1) = rowstr' (e.row + 1))
    (w : Work R) : addAll rowstr items w = addAll rowstr' items w := by
  induction items generalizing w with
  | nil => rfl
  | cons e items ih =>
      have here := same e List.mem_cons_self
      rw [addAll, addAll, List.foldlM_cons, List.foldlM_cons, here.1, here.2]
      exact congrArg _ (funext (ih fun e member => same e (List.mem_cons_of_mem _ member)))

end Add

/-! ## The elements of the matrix -/

/-- The inner loops of the generation for one row of the generated lists. -/
theorem fillRow_eq [Zero R] [Add R] [Sub R] [Mul R] (p : Problem R) (i lo hi : ℕ)
    (rowstr : ℕ → ℤ) (items row : List (ℕ × R)) (size : R)
    (w : Work R) :
    (items.foldlM
      (fun w nza =>
        if nza.1 < lo ∨ nza.1 ≥ hi then some w
        else
          row.foldlM
            (fun w nzrow => addElement nza.1 (rowstr nza.1) (rowstr (nza.1 + 1)) nzrow.1
              (elementValue p i nza.1 nzrow.1 nzrow.2 (size * nza.2)) w) w) w : Option (Work R)) =
      addAll rowstr ((items.flatMap fun nza => row.map fun nzrow =>
        (⟨nza.1, nzrow.1, elementValue p i nza.1 nzrow.1 nzrow.2 (size * nza.2)⟩ :
          Element R)).filter fun e => decide (lo ≤ e.row ∧ e.row < hi)) w := by
  induction items generalizing w with
  | nil => rfl
  | cons nza items ih =>
      rw [List.flatMap_cons, List.filter_append, addAll_append, List.foldlM_cons, List.filter_map]
      by_cases outside : nza.1 < lo ∨ nza.1 ≥ hi
      · have none : row.filter ((fun e : Element R => decide (lo ≤ e.row ∧ e.row < hi)) ∘
            fun nzrow => ⟨nza.1, nzrow.1,
              elementValue p i nza.1 nzrow.1 nzrow.2 (size * nza.2)⟩) = [] := by
          simp only [List.filter_eq_nil_iff, Function.comp_apply, decide_eq_true_eq]
          intro nzrow _
          omega
        rw [if_pos outside, none]
        exact ih w
      · have all : row.filter ((fun e : Element R => decide (lo ≤ e.row ∧ e.row < hi)) ∘
            fun nzrow => ⟨nza.1, nzrow.1,
              elementValue p i nza.1 nzrow.1 nzrow.2 (size * nza.2)⟩) = row := by
          simp only [List.filter_eq_self, Function.comp_apply, decide_eq_true_eq]
          intro nzrow _
          omega
        rw [if_neg outside, all, addAll, List.foldlM_map]
        exact congrArg _ (funext ih)

section Elements

variable [One R] [Add R] [Sub R] [Mul R] (p : Problem R)

/-- The value of `size` in turn `i`. -/
def Problem.size : ℕ → R
  | 0 => 1
  | i + 1 => Problem.size i * p.ratio

/-- The elements that generated row `i` adds, in order. -/
def Problem.rowProducts (i : ℕ) : List (Element R) :=
  (p.row i).flatMap fun nza => (p.row i).map fun nzrow =>
    ⟨nza.1, nzrow.1, elementValue p i nza.1 nzrow.1 nzrow.2 (p.size i * nza.2)⟩

/-- All elements that are summed into the matrix, in order. -/
def Problem.elements : List (Element R) := (List.range p.n).flatMap p.rowProducts

/-- The elements of one row of the matrix, in order. -/
def Problem.rowElements (j : ℕ) : List (Element R) :=
  p.elements.filter fun e => decide (e.row = j)

/-- The first position of a row: the number of elements in the rows before it. -/
def Problem.rowStart (j : ℕ) : ℤ := ∑ i ∈ Finset.range j, ((p.rowElements i).length : ℤ)

theorem Problem.rowStart_zero : p.rowStart 0 = 0 := rfl

theorem Problem.rowStart_succ (j : ℕ) :
    p.rowStart (j + 1) = p.rowStart j + (p.rowElements j).length :=
  Finset.sum_range_succ _ _

theorem Problem.rowStart_mono : Monotone p.rowStart :=
  monotone_nat_of_le_succ fun j => by
    rw [p.rowStart_succ]
    omega

/-- Different rows lie apart. -/
theorem Problem.rowStart_apart {i j : ℕ} (different : i ≠ j) :
    p.rowStart (i + 1) ≤ p.rowStart j ∨ p.rowStart (j + 1) ≤ p.rowStart i := by
  rcases Nat.lt_or_gt_of_ne different with before | after
  · exact .inl (p.rowStart_mono before)
  · exact .inr (p.rowStart_mono after)

/-- The elements of a block of rows. -/
def Problem.blockElements (lo hi : ℕ) : List (Element R) :=
  p.elements.filter fun e => decide (lo ≤ e.row ∧ e.row < hi)

theorem Problem.filter_blockElements {lo hi j : ℕ} (lower : lo ≤ j) (upper : j < hi) :
    (p.blockElements lo hi).filter (fun e => decide (e.row = j)) = p.rowElements j := by
  rw [Problem.blockElements, List.filter_filter, Problem.rowElements]
  refine List.filter_congr fun e _ => ?_
  by_cases here : e.row = j
  · simp [here, lower, upper]
  · simp [here]

/-- The rows before `j` have as many positions as there are elements in them. -/
theorem Problem.rowStart_eq_length (j : ℕ) :
    p.rowStart j = ((p.elements.filter fun e => decide (e.row < j)).length : ℤ) := by
  induction j with
  | zero => simp [Problem.rowStart]
  | succ j ih =>
      have split : ∀ items : List (Element R),
          (items.filter fun e => decide (e.row ≤ j)).length =
            (items.filter fun e => decide (e.row < j)).length +
              (items.filter fun e => decide (e.row = j)).length := by
        intro items
        induction items with
        | nil => rfl
        | cons e items ih =>
            rcases lt_trichotomy e.row j with before | here | after
            · simp [before, before.ne, before.le, ih, Nat.add_right_comm]
            · simp [here, ih, Nat.add_assoc]
            · simp [after.ne', Nat.not_lt_of_gt after, Nat.not_le_of_gt after, ih]
      simp only [Nat.lt_succ_iff]
      rw [p.rowStart_succ, ih, split, Problem.rowElements, Nat.cast_add]

/-- **The declared size suffices**: the check of the space never fails. -/
theorem Problem.rowStart_le_nz (j : ℕ) : p.rowStart j ≤ p.nz := by
  have products : ∀ i, (p.rowProducts i).length ≤ (p.nonzer + 1) * (p.nonzer + 1) := by
    intro i
    have length : (p.rowProducts i).length = (p.row i).length * (p.row i).length := by
      simp [Problem.rowProducts, List.length_flatMap]
    rw [length]
    exact Nat.mul_le_mul (p.row_length i) (p.row_length i)
  have all : p.elements.length ≤ p.nz := by
    rw [Problem.elements, List.length_flatMap, Problem.nz, Nat.mul_assoc]
    calc ((List.range p.n).map fun i => (p.rowProducts i).length).sum
        ≤ ((List.range p.n).map fun _ => (p.nonzer + 1) * (p.nonzer + 1)).sum :=
          List.sum_le_sum fun i _ => products i
      _ = p.n * ((p.nonzer + 1) * (p.nonzer + 1)) := by simp
  rw [p.rowStart_eq_length]
  exact_mod_cast (List.length_filter_le _ _).trans all

variable [Zero R]

/-- **The generation of the values sums the elements of the ULT's rows.** -/
theorem fillLoop_eq {numThreads thread : ℕ} {m : Memory R}
    (generated : ∀ i < p.n, m.triples i = p.row i) :
    fillLoop p numThreads thread m =
      (addAll m.rowstr (p.blockElements (ilow p numThreads thread) (ihigh p numThreads thread))
        m.toWork).map fun w => (p.size p.n, w) := by
  suffices upTo : ∀ k ≤ p.n, (List.range k).foldlM _ (1, m.toWork) =
      (addAll m.rowstr (((List.range k).flatMap p.rowProducts).filter fun e =>
        decide (ilow p numThreads thread ≤ e.row ∧ e.row < ihigh p numThreads thread))
          m.toWork).map fun w => (p.size k, w) from upTo p.n le_rfl
  intro k within
  induction k with
  | zero => rfl
  | succ k ih =>
      rw [List.range_succ, List.foldlM_append, ih (by omega), List.flatMap_append,
        List.filter_append, addAll_append, List.flatMap_singleton]
      cases addAll m.rowstr (((List.range k).flatMap p.rowProducts).filter _) m.toWork with
      | none => rfl
      | some w =>
          simp only [Option.map_some, Option.bind_some, Option.bind_eq_bind, List.foldlM_cons,
            List.foldlM_nil]
          rw [generated k (by omega), fillRow_eq]
          exact Option.bind_fun_some _

/-! ## What the rows hold in the end -/

/-- A workspace with empty rows. -/
def fresh : Work R := ⟨fun _ => 0, fun _ => -1, fun _ => 0⟩

/-- A workspace with row `j` summed up. -/
def Problem.finalRow (j : ℕ) : Work R := (addAll p.rowStart (p.rowElements j) fresh).getD fresh

/-- The first elements of a row are summed without an error. -/
theorem Problem.addAll_rowElements {j : ℕ} {done : List (Element R)}
    (first : done <+: p.rowElements j) :
    ∃ w used, addAll p.rowStart done fresh = some w ∧
      Filled (p.rowStart j) (p.rowStart (j + 1)) done used w.iv (w.nzloc j) := by
  induction done using List.reverseRecOn with
  | nil => exact ⟨fresh, 0, rfl, .start fun _ _ _ => rfl⟩
  | append_singleton done e ih =>
      obtain ⟨w, used, summed, filled⟩ := ih ((List.prefix_append done [e]).trans first)
      have short : done.length + 1 ≤ (p.rowElements j).length := by
        simpa using first.length_le
      have mine : e.row = j := by
        have member := first.subset (List.mem_append_right done List.mem_cons_self)
        simpa using (List.mem_filter.mp member).2
      have room : p.rowStart j + done.length < p.rowStart (j + 1) := by
        rw [p.rowStart_succ]
        omega
      obtain ⟨w', used', added, filled'⟩ := filled.add room e
      refine ⟨w', used', ?_, filled'⟩
      rw [addAll_append, summed, Option.bind_some, addAll, List.foldlM_cons, mine, added]
      rfl

/-- **No internal error.**  A row takes all its elements. -/
theorem Problem.finalRow_eq (j : ℕ) :
    addAll p.rowStart (p.rowElements j) fresh = some (p.finalRow j) := by
  obtain ⟨w, -, summed, -⟩ := p.addAll_rowElements (List.prefix_refl (p.rowElements j))
  rw [Problem.finalRow, summed, Option.getD_some]

theorem Problem.finalRow_filled (j : ℕ) :
    ∃ used, Filled (p.rowStart j) (p.rowStart (j + 1)) (p.rowElements j) used
      (p.finalRow j).iv ((p.finalRow j).nzloc j) := by
  obtain ⟨w, used, summed, filled⟩ := p.addAll_rowElements (List.prefix_refl (p.rowElements j))
  rw [Problem.finalRow, summed, Option.getD_some]
  exact ⟨used, filled⟩

/-- The number of duplicates of a row. -/
def Problem.duplicates (j : ℕ) : ℤ := (p.finalRow j).nzloc j

theorem Problem.duplicates_nonneg (j : ℕ) : 0 ≤ p.duplicates j := by
  obtain ⟨_, filled⟩ := p.finalRow_filled j
  exact filled.nonneg

theorem Problem.duplicates_le (j : ℕ) : p.duplicates j ≤ (p.rowElements j).length := by
  obtain ⟨_, filled⟩ := p.finalRow_filled j
  have counted := filled.counted
  rw [Problem.duplicates]
  omega

theorem Problem.duplicates_eq_zero {j : ℕ}
    (distinct : ((p.rowElements j).map Element.col).Nodup) : p.duplicates j = 0 := by
  obtain ⟨_, filled⟩ := p.finalRow_filled j
  exact filled.distinct distinct

/-- The number of duplicates in the rows before. -/
def Problem.duplicatesBefore (j : ℕ) : ℤ := ∑ i ∈ Finset.range j, p.duplicates i

theorem Problem.duplicatesBefore_zero : p.duplicatesBefore 0 = 0 := rfl

theorem Problem.duplicatesBefore_succ (j : ℕ) :
    p.duplicatesBefore (j + 1) = p.duplicatesBefore j + p.duplicates j :=
  Finset.sum_range_succ _ _

theorem Problem.duplicatesBefore_nonneg (j : ℕ) : 0 ≤ p.duplicatesBefore j :=
  Finset.sum_nonneg fun i _ => p.duplicates_nonneg i

/-- The first position of a row after the empty positions are removed. -/
def Problem.finalStart (j : ℕ) : ℤ := p.rowStart j - p.duplicatesBefore j

theorem Problem.finalStart_zero : p.finalStart 0 = 0 := rfl

theorem Problem.finalStart_mono : Monotone p.finalStart :=
  monotone_nat_of_le_succ fun j => by
    have few := p.duplicates_le j
    rw [Problem.finalStart, Problem.finalStart, p.rowStart_succ, p.duplicatesBefore_succ]
    omega

/-- A position belongs to one row only. -/
theorem Problem.finalStart_unique {i j : ℕ} {k : ℤ}
    (inFirst : p.finalStart i ≤ k ∧ k < p.finalStart (i + 1))
    (inSecond : p.finalStart j ≤ k ∧ k < p.finalStart (j + 1)) : i = j := by
  rcases lt_trichotomy i j with before | same | after
  · have ordered := p.finalStart_mono (Nat.succ_le_of_lt before)
    simp only [Nat.succ_eq_add_one] at ordered
    omega
  · exact same
  · have ordered := p.finalStart_mono (Nat.succ_le_of_lt after)
    simp only [Nat.succ_eq_add_one] at ordered
    omega

/-- The workspace after some elements of the rows from `lo` up to `hi`. -/
structure Problem.Summed (lo hi : ℕ) (w : Work R) (done : List (Element R)) (w' : Work R) :
    Prop where
  rows : ∀ j, lo ≤ j → j < hi → ∃ s,
    addAll p.rowStart (done.filter fun e => decide (e.row = j)) fresh = some s ∧
      SameRow (p.rowStart j) (p.rowStart (j + 1)) j s w'
  others : ∀ j, ¬ (lo ≤ j ∧ j < hi) → SameRow (p.rowStart j) (p.rowStart (j + 1)) j w w'

variable {p} in
/-- One more element. -/
theorem Problem.Summed.add {lo hi : ℕ} {w w' : Work R} {done : List (Element R)}
    (summed : p.Summed lo hi w done w') {e : Element R} (lower : lo ≤ e.row) (upper : e.row < hi)
    (next : (done.filter fun e' => decide (e'.row = e.row)) ++ [e] <+: p.rowElements e.row) :
    ∃ z, addElement e.row (p.rowStart e.row) (p.rowStart (e.row + 1)) e.col e.value w' = some z ∧
      p.Summed lo hi w (done ++ [e]) z := by
  obtain ⟨s, row, same⟩ := summed.rows e.row lower upper
  obtain ⟨s', -, row', -⟩ := p.addAll_rowElements next
  have added : addElement e.row (p.rowStart e.row) (p.rowStart (e.row + 1)) e.col e.value s =
      some s' := by
    rw [addAll_append, row, Option.bind_some, addAll, List.foldlM_cons] at row'
    simpa using row'
  obtain ⟨z, added', same'⟩ := addElement_congr same added
  have kept : ∀ j, j ≠ e.row → SameRow (p.rowStart j) (p.rowStart (j + 1)) j w' z :=
    fun j other => ((addElement_frame added').sameRow (p.rowStart_apart other.symm) other).symm
  refine ⟨z, added', fun j low high => ?_, fun j outside => ?_⟩
  · rw [List.filter_append]
    rcases eq_or_ne j e.row with rfl | other
    · exact ⟨s', by simpa using row', same'⟩
    · obtain ⟨r, rowJ, sameJ⟩ := summed.rows j low high
      exact ⟨r, by simpa [other.symm] using rowJ, sameJ.trans (kept j other)⟩
  · have other : j ≠ e.row := fun here => outside (here ▸ ⟨lower, upper⟩)
    exact (summed.others j outside).trans (kept j other)

/-- **Whoever sums a block of rows leaves the final rows there**, and every other
row as it was. -/
theorem Problem.addAll_block {lo hi : ℕ} {w : Work R}
    (empty : ∀ j, lo ≤ j → j < hi → SameRow (p.rowStart j) (p.rowStart (j + 1)) j w fresh) :
    ∃ w', addAll p.rowStart (p.blockElements lo hi) w = some w' ∧
      (∀ j, lo ≤ j → j < hi →
        SameRow (p.rowStart j) (p.rowStart (j + 1)) j w' (p.finalRow j)) ∧
      ∀ j, ¬ (lo ≤ j ∧ j < hi) → SameRow (p.rowStart j) (p.rowStart (j + 1)) j w' w := by
  have upTo : ∀ done, done <+: p.blockElements lo hi →
      ∃ w', addAll p.rowStart done w = some w' ∧ p.Summed lo hi w done w' := by
    intro done
    induction done using List.reverseRecOn with
    | nil =>
        exact fun _ => ⟨w, rfl, fun j lower upper => ⟨fresh, rfl, (empty j lower upper).symm⟩,
          fun j _ => .refl ..⟩
    | append_singleton done e ih =>
        intro first
        obtain ⟨w', before, summed⟩ := ih ((List.prefix_append done [e]).trans first)
        have member := first.subset (List.mem_append_right done List.mem_cons_self)
        obtain ⟨lower, upper⟩ : lo ≤ e.row ∧ e.row < hi := by
          simpa using (List.mem_filter.mp member).2
        have next : (done.filter fun e' => decide (e'.row = e.row)) ++ [e] <+:
            p.rowElements e.row := by
          rw [← p.filter_blockElements lower upper]
          simpa using first.filter fun e' => decide (e'.row = e.row)
        obtain ⟨z, added, after⟩ := summed.add lower upper next
        refine ⟨z, ?_, after⟩
        rw [addAll_append, before, Option.bind_some, addAll, List.foldlM_cons, added]
        rfl
  obtain ⟨w', summed, after⟩ := upTo _ (List.prefix_refl _)
  refine ⟨w', summed, fun j lower upper => ?_, fun j outside => (after.others j outside).symm⟩
  obtain ⟨s, row, same⟩ := after.rows j lower upper
  rw [p.filter_blockElements lower upper, p.finalRow_eq, Option.some_inj] at row
  exact row ▸ same.symm

end Elements

end ArgobotsReduction.ConjugateGradient.Sparse
