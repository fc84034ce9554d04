import ArgobotsReduction.Containers.SortedSums
import ArgobotsReduction.ConjugateGradient.SparseRows

/-!
# The rows hold sorted sums

The positions of a row hold a list of pairs with increasing columns, and are empty behind it
(`Represents`).  Summing an element into the row adds it to that list: the loop on `k` stops
where the list is cut by the column of the element, and the loop on `kk` makes room there
(`Represents.add`).  Every element that takes no position of its own is counted as a
duplicate.  So in the end a row holds the sums of its elements, one for each column
(`Problem.finalRow_represents`).
-/

set_option autoImplicit false

namespace ArgobotsReduction.ConjugateGradient.Sparse

open Containers

variable {R : Type}

/-- What `iv` holds for a pair, or for none. -/
def columnOf : Option (ℕ × R) → ℤ
  | none => -1
  | some item => item.1

/-- What `v` holds for a pair, or for none. -/
def amountOf [Zero R] : Option (ℕ × R) → R
  | none => 0
  | some item => item.2

theorem columnOf_gt_neg_one {item : Option (ℕ × R)} : -1 < columnOf item ↔ item.isSome := by
  cases item with
  | none => simp [columnOf]
  | some item => simp [columnOf]; omega

/-- The row in the positions from `first` up to `stop` holds the pairs, one after the other, and
is empty behind them. -/
structure Represents [Zero R] (first stop : ℤ) (entries : List (ℕ × R)) (v : ℤ → R) (iv : ℤ → ℤ) :
    Prop where
  column : ∀ t : ℕ, first + t < stop → iv (first + t) = columnOf entries[t]?
  amount : ∀ t : ℕ, first + t < stop → v (first + t) = amountOf entries[t]?

section Positions

variable [Zero R] {first stop : ℤ} {entries before after : List (ℕ × R)} {v : ℤ → R} {iv : ℤ → ℤ}

theorem Represents.fresh (first stop : ℤ) :
    Represents first stop [] (Sparse.fresh : Work R).v (Sparse.fresh : Work R).iv :=
  ⟨fun _ _ => rfl, fun _ _ => rfl⟩

/-- Arrays that are checked before, at, and behind a pair. -/
theorem Represents.of_parts {item : ℕ × R} (unchanged : ∀ t : ℕ, t < before.length →
      first + t < stop → iv (first + t) = columnOf before[t]? ∧ v (first + t) = amountOf before[t]?)
    (here : iv (first + before.length) = item.1 ∧ v (first + before.length) = item.2)
    (behind : ∀ s : ℕ, first + before.length + (s + 1) < stop →
      iv (first + before.length + (s + 1)) = columnOf after[s]? ∧
        v (first + before.length + (s + 1)) = amountOf after[s]?) :
    Represents first stop (before ++ item :: after) v iv := by
  have all : ∀ t : ℕ, first + t < stop → iv (first + t) = columnOf (before ++ item :: after)[t]? ∧
      v (first + t) = amountOf (before ++ item :: after)[t]? := by
    intro t inside
    rcases lt_trichotomy t before.length with within | rfl | past
    · rw [List.getElem?_append_left within]
      exact unchanged t within inside
    · rw [List.getElem?_append_right le_rfl, Nat.sub_self]
      exact here
    · obtain ⟨s, rfl⟩ : ∃ s, t = before.length + (s + 1) := by
        refine ⟨t - before.length - 1, ?_⟩
        omega
      rw [List.getElem?_append_right (by omega), Nat.add_sub_cancel_left, List.getElem?_cons_succ]
      push_cast at inside ⊢
      rw [← Int.add_assoc] at inside ⊢
      exact behind s inside
  exact ⟨fun t inside => (all t inside).1, fun t inside => (all t inside).2⟩

/-- The pairs of the first part. -/
theorem Represents.inFirst (represents : Represents first stop (before ++ after) v iv) {t : ℕ}
    (within : t < before.length) (inside : first + t < stop) :
    iv (first + t) = columnOf before[t]? ∧ v (first + t) = amountOf before[t]? := by
  rw [← List.getElem?_append_left within]
  exact ⟨represents.column t inside, represents.amount t inside⟩

/-- The pairs of the second part. -/
theorem Represents.inSecond (represents : Represents first stop (before ++ after) v iv) {s : ℕ}
    (inside : first + before.length + s < stop) :
    iv (first + before.length + s) = columnOf after[s]? ∧
      v (first + before.length + s) = amountOf after[s]? := by
  have place : (before ++ after)[before.length + s]? = after[s]? := by
    rw [List.getElem?_append_right (by omega), Nat.add_sub_cancel_left]
  have column := represents.column (before.length + s)
  have amount := represents.amount (before.length + s)
  push_cast at column amount
  rw [← Int.add_assoc, place] at column amount
  exact ⟨column inside, amount inside⟩

/-- The position where the parts meet. -/
theorem Represents.atCut (represents : Represents first stop (before ++ after) v iv)
    (inside : first + before.length < stop) :
    iv (first + before.length) = columnOf after.head? ∧
      v (first + before.length) = amountOf after.head? := by
  have here := represents.inSecond (s := 0) (by push_cast; omega)
  rwa [Nat.cast_zero, Int.add_zero, ← List.head?_eq_getElem?] at here

/-- The positions behind it. -/
theorem Represents.behindCut (represents : Represents first stop (before ++ after) v iv) {s : ℕ}
    (inside : first + before.length + (s + 1) < stop) :
    iv (first + before.length + (s + 1)) = columnOf after[s + 1]? ∧
      v (first + before.length + (s + 1)) = amountOf after[s + 1]? := by
  have behind := represents.inSecond (s := s + 1) (by push_cast; exact inside)
  push_cast at behind
  exact behind

/-- The loop on `k` stops where the column cuts the list. -/
theorem Represents.slot_eq (represents : Represents first stop (before ++ after) v iv) {jcol : ℕ}
    {k : ℤ} (room : first + (before ++ after).length < stop)
    (smaller : ∀ item ∈ before, item.1 < jcol) (cut : ∀ item ∈ after.head?, jcol ≤ item.1)
    (found : slot first stop jcol iv = some k) : k = first + before.length := by
  obtain ⟨lower, upper, broken, least⟩ := slot_eq_some.mp found
  rw [List.length_append] at room
  push_cast at room
  -- the columns of the first part do not stop the loop
  have passed : ¬ k < first + before.length := by
    intro inside
    obtain ⟨t, rfl⟩ : ∃ t : ℕ, k = first + t := by
      refine ⟨(k - first).toNat, ?_⟩
      omega
    have within : t < before.length := by omega
    have here := (represents.inFirst within upper).1
    rw [List.getElem?_eq_getElem within, columnOf] at here
    have less := smaller before[t] (List.getElem_mem within)
    omega
  -- and the position behind them does
  have stops : iv (first + before.length) > jcol ∨ iv (first + before.length) = -1 ∨
      iv (first + before.length) = jcol := by
    have here := (represents.atCut (by omega)).1
    cases after with
    | nil => exact .inr (.inl here)
    | cons item after =>
        have notLess := cut item rfl
        rw [here, List.head?_cons, columnOf]
        omega
  by_contra other
  exact least _ (by omega) (by omega) stops

end Positions

section Add

variable [AddCommMonoid R] {first stop : ℤ} {j jcol : ℕ} {va : R} {w w' : Work R}
  {before after : List (ℕ × R)}

variable (j va) in
/-- The column is not in the list: it is inserted, or put behind the last pair. -/
theorem Represents.insert (represents : Represents first stop (before ++ after) w.v w.iv)
    (room : first + (before ++ after).length < stop)
    (larger : ∀ item ∈ after.head?, jcol < item.1) :
    Represents first stop (before ++ (jcol, va) :: after)
        (addAt j stop jcol va (first + before.length) w).v
        (addAt j stop jcol va (first + before.length) w).iv ∧
      (addAt j stop jcol va (first + before.length) w).nzloc = w.nzloc := by
  rw [List.length_append] at room
  push_cast at room
  have here := represents.atCut (by omega)
  cases after with
  | nil =>
      rw [addAt_empty here.1]
      refine ⟨.of_parts (fun t within inside => ?_) ?_ (fun s inside => ?_), rfl⟩
      · dsimp only
        rw [Function.update_of_ne (by omega), Function.update_of_ne (by omega)]
        exact represents.inFirst within inside
      · dsimp only
        rw [Function.update_self, Function.update_self, here.2]
        exact ⟨rfl, zero_add va⟩
      · dsimp only
        rw [Function.update_of_ne (by omega), Function.update_of_ne (by omega)]
        exact represents.behindCut inside
  | cons item after =>
      have beyond : w.iv (first + before.length) > jcol := by
        have less := larger item rfl
        rw [here.1, List.head?_cons, columnOf]
        omega
      rw [addAt_insert beyond]
      refine ⟨.of_parts (fun t within inside => ?_) ?_ (fun s inside => ?_), rfl⟩
      · dsimp only
        rw [Function.update_of_ne (by omega), Function.update_of_ne (by omega), if_neg (by omega),
          if_neg (by omega)]
        exact represents.inFirst within inside
      · dsimp only
        rw [Function.update_self, Function.update_self]
        exact ⟨rfl, zero_add va⟩
      · -- what stands here now stood one position to the left
        have left := represents.inSecond (s := s) (by omega)
        have same := represents.behindCut inside
        dsimp only
        rw [Function.update_of_ne (by omega), Function.update_of_ne (by omega),
          show first + (before.length : ℤ) + ((s : ℤ) + 1) - 1 = first + before.length + s by omega,
          left.1, left.2, same.1, same.2]
        cases taken : (item :: after)[s]? with
        | none =>
            have noneNext : (item :: after)[s + 1]? = none := by
              rw [List.getElem?_eq_none_iff] at taken ⊢
              omega
            rw [noneNext, if_neg fun moved => absurd moved.2.2 (lt_irrefl _)]
            simp
        | some other =>
            have occupied := columnOf_gt_neg_one.mpr (Option.isSome_some (a := other))
            rw [if_pos ⟨by omega, inside, occupied⟩, if_pos ⟨by omega, inside, occupied⟩]
            exact ⟨rfl, rfl⟩

variable (j va) in
/-- The column is in the list: the amount of its pair grows. -/
theorem Represents.raise {x : R}
    (represents : Represents first stop (before ++ (jcol, x) :: after) w.v w.iv)
    (room : first + before.length < stop) :
    Represents first stop (before ++ (jcol, x + va) :: after)
        (addAt j stop jcol va (first + before.length) w).v
        (addAt j stop jcol va (first + before.length) w).iv ∧
      (addAt j stop jcol va (first + before.length) w).nzloc j = w.nzloc j + 1 := by
  have here := represents.atCut room
  rw [addAt_duplicate here.1]
  refine ⟨.of_parts (fun t within inside => ?_) ?_ (fun s inside => ?_), Function.update_self ..⟩
  · dsimp only
    rw [Function.update_of_ne (by omega)]
    exact represents.inFirst within inside
  · dsimp only
    rw [Function.update_self, here.1, here.2]
    exact ⟨rfl, rfl⟩
  · dsimp only
    rw [Function.update_of_ne (by omega)]
    exact represents.behindCut inside

/-- **Summing an element into a row adds it to the list**, and counts it if its column is
there. -/
theorem Represents.add {entries : List (ℕ × R)}
    (represents : Represents first stop entries w.v w.iv) (room : first + entries.length < stop)
    (added : addElement j first stop jcol va w = some w') :
    Represents first stop (addTo jcol va entries) w'.v w'.iv ∧
      w'.nzloc j + (addTo jcol va entries).length = w.nzloc j + entries.length + 1 := by
  obtain ⟨before, after, rfl, smaller, cut⟩ := exists_cut jcol entries
  obtain ⟨k, found, rfl⟩ := Option.map_eq_some_iff.mp added
  obtain rfl := represents.slot_eq room smaller cut found
  rw [addTo_append smaller]
  have inserted : ∀ rest, rest = after → (∀ item ∈ after.head?, jcol < item.1) →
      Represents first stop (before ++ (jcol, va) :: rest)
          (addAt j stop jcol va (first + before.length) w).v
          (addAt j stop jcol va (first + before.length) w).iv ∧
        (addAt j stop jcol va (first + before.length) w).nzloc j +
          (before ++ (jcol, va) :: rest).length = w.nzloc j + (before ++ after).length + 1 := by
    rintro rest rfl larger
    obtain ⟨kept, counted⟩ := represents.insert j va room larger
    refine ⟨kept, ?_⟩
    rw [counted]
    simp
    omega
  cases after with
  | nil => exact inserted [] rfl nofun
  | cons item after =>
      obtain ⟨column, x⟩ := item
      rw [addTo]
      have notLess : jcol ≤ column := cut _ rfl
      rcases Nat.lt_or_eq_of_le notLess with less | rfl
      · rw [if_pos less]
        refine inserted _ rfl fun item first => ?_
        obtain rfl := Option.some.inj first
        exact less
      · rw [if_neg (lt_irrefl jcol), if_pos rfl]
        have within : first + before.length < stop := by
          rw [List.length_append] at room
          push_cast at room
          omega
        obtain ⟨kept, counted⟩ := represents.raise j va within
        refine ⟨kept, ?_⟩
        rw [counted]
        simp
        omega

end Add

/-! ## The rows in the end -/

section Final

variable [CommRing R] (p : Problem R)

/-- The columns and values of a list of elements. -/
def pairs (items : List (Element R)) : List (ℕ × R) := items.map fun e => (e.col, e.value)

/-- The first elements of a row leave their sums in it. -/
theorem Problem.represents_of_prefix {j : ℕ} {done : List (Element R)}
    (first : done <+: p.rowElements j) :
    ∃ w, addAll p.rowStart done fresh = some w ∧
      Represents (p.rowStart j) (p.rowStart (j + 1)) (sums (pairs done)) w.v w.iv ∧
      w.nzloc j + (sums (pairs done)).length = done.length := by
  induction done using List.reverseRecOn with
  | nil => exact ⟨fresh, rfl, .fresh _ _, rfl⟩
  | append_singleton done e ih =>
      have earlier := (List.prefix_append done [e]).trans first
      obtain ⟨w, summed, represents, counted⟩ := ih earlier
      obtain ⟨_, _, same, filled⟩ := p.addAll_rowElements earlier
      obtain rfl := Option.some.inj (summed.symm.trans same)
      obtain ⟨w', -, summed', -⟩ := p.addAll_rowElements first
      have mine : e.row = j := by
        have member := first.subset (List.mem_append_right done List.mem_cons_self)
        simpa using (List.mem_filter.mp member).2
      have added : addElement j (p.rowStart j) (p.rowStart (j + 1)) e.col e.value w = some w' := by
        rw [addAll_append, summed, Option.bind_some, addAll, List.foldlM_cons, mine] at summed'
        simpa using summed'
      have room : p.rowStart j + (sums (pairs done)).length < p.rowStart (j + 1) := by
        have short := first.length_le
        have nonneg := filled.nonneg
        rw [List.length_append, List.length_singleton] at short
        rw [p.rowStart_succ]
        omega
      obtain ⟨kept, more⟩ := represents.add room added
      have next : sums (pairs (done ++ [e])) = addTo e.col e.value (sums (pairs done)) := by
        rw [pairs, List.map_append, List.map_singleton, sums_concat]
        rfl
      refine ⟨w', summed', next ▸ kept, ?_⟩
      rw [next, more, counted]
      simp

/-- The columns of a row, with the sums of its elements in each. -/
def Problem.rowSums (j : ℕ) : List (ℕ × R) := sums (pairs (p.rowElements j))

/-- **A row holds the sums of its elements in the end.** -/
theorem Problem.finalRow_represents (j : ℕ) :
    Represents (p.rowStart j) (p.rowStart (j + 1)) (p.rowSums j) (p.finalRow j).v
      (p.finalRow j).iv := by
  obtain ⟨w, summed, represents, -⟩ := p.represents_of_prefix (List.prefix_refl (p.rowElements j))
  obtain rfl := Option.some.inj (summed.symm.trans (p.finalRow_eq j))
  exact represents

/-- The elements that are no duplicates have a column each. -/
theorem Problem.duplicates_add_length (j : ℕ) :
    p.duplicates j + (p.rowSums j).length = (p.rowElements j).length := by
  obtain ⟨w, summed, -, counted⟩ := p.represents_of_prefix (List.prefix_refl (p.rowElements j))
  obtain rfl := Option.some.inj (summed.symm.trans (p.finalRow_eq j))
  exact counted

/-- After the empty positions are removed, a row has as many positions as columns. -/
theorem Problem.finalStart_succ (j : ℕ) :
    p.finalStart (j + 1) = p.finalStart j + (p.rowSums j).length := by
  have counted := p.duplicates_add_length j
  rw [Problem.finalStart, Problem.finalStart, p.rowStart_succ, p.duplicatesBefore_succ]
  omega

end Final

end ArgobotsReduction.ConjugateGradient.Sparse
