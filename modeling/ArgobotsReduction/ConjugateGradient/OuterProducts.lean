import Mathlib.Algebra.BigOperators.Ring.Finset
import Mathlib.Data.Rat.Floor
import Mathlib.Tactic.Ring
import ArgobotsReduction.ConjugateGradient.Assembly
import ArgobotsReduction.ConjugateGradient.RowGeneration
import ArgobotsReduction.ConjugateGradient.RowSums
import ArgobotsReduction.Parallel.Rounds

/-!
# The matrix is the sum of the outer products

Every generated row, taken as a vector, adds its outer product with itself to the matrix, by a
factor that shrinks from row to row, and `rcond - shift` is added on the diagonal
(`Problem.outerProducts`).  When the columns of a generated row are distinct and row `i` has
column `i`, that is what `sparse` leaves, in rows with increasing columns and without empty
positions (`IsOuterProducts`).
-/

set_option autoImplicit false

namespace ArgobotsReduction.ConjugateGradient.Sparse

open Containers Parallel

/-! ## The sum of the outer products -/

section Sums

variable {R : Type} [CommRing R] (p : Problem R)

/-- The value in a column of a generated row. -/
def Problem.aelt (i j : ℕ) : R := coefficient (p.row i) j

/-- The columns that a row of the matrix shares with the generated rows. -/
def Problem.columns (j : ℕ) : Finset ℕ :=
  ((Finset.range p.n).filter fun i => j ∈ keys (p.row i)).biUnion fun i =>
    (keys (p.row i)).toFinset

/-- The sum over the generated rows that contain both columns. -/
def Problem.outerProducts (j c : ℕ) : R :=
  ∑ i ∈ (Finset.range p.n).filter fun i => j ∈ keys (p.row i) ∧ c ∈ keys (p.row i),
    p.ratio ^ i * p.aelt i j * p.aelt i c

/-- The entry of the matrix in row `j` and column `c`. -/
def Assembled.entry (result : Assembled R) (j c : ℕ) : R :=
  ((upto (result.rowstr j) (result.rowstr (j + 1))).map fun k =>
    if result.colidx k = c then result.a k else 0).sum

/-- The arrays hold the sum of the outer products. -/
structure IsOuterProducts (result : Assembled R) : Prop where
  rowstr : ∀ j ≤ p.n, result.rowstr j = ∑ i ∈ Finset.range j, ((p.columns i).card : ℤ)
  increasing : ∀ j < p.n, ∀ k l, result.rowstr j ≤ k → k < l → l < result.rowstr (j + 1) →
    result.colidx k < result.colidx l
  filled : ∀ j < p.n, ∀ k, result.rowstr j ≤ k → k < result.rowstr (j + 1) →
    ∃ c ∈ p.columns j, result.colidx k = c
  entry : ∀ j < p.n, ∀ c, result.entry j c =
    p.outerProducts j c + if j = c then p.rcond - p.shift else 0

end Sums

/-! ## The sums of a row -/

section Rows

variable {R : Type} [CommRing R] (p : Problem R)

theorem Problem.size_eq_pow (i : ℕ) : p.size i = p.ratio ^ i := by
  induction i with
  | zero => rw [Problem.size, pow_zero]
  | succ i ih => rw [Problem.size, ih, pow_succ]

/-- What generated row `i` adds to row `j`. -/
def Problem.rowPart (i j : ℕ) : List (ℕ × R) :=
  pairs ((p.rowProducts i).filter fun e => decide (e.row = j))

theorem Problem.pairs_rowElements (j : ℕ) :
    pairs (p.rowElements j) = (List.range p.n).flatMap fun i => p.rowPart i j := by
  rw [pairs, Problem.rowElements, Problem.elements, List.filter_flatMap, List.map_flatMap]
  rfl

variable {p} {i j c : ℕ}

/-- One pass of the loop on `nza` adds to the row of its column only. -/
theorem coefficient_pass (nza : ℕ × R) :
    coefficient (pairs (((p.row i).map fun nzrow =>
      (⟨nza.1, nzrow.1, elementValue p i nza.1 nzrow.1 nzrow.2 (p.size i * nza.2)⟩ :
        Element R)).filter fun e => decide (e.row = j))) c =
      if nza.1 = j then
        coefficient ((p.row i).map fun nzrow =>
          (nzrow.1, elementValue p i nza.1 nzrow.1 nzrow.2 (p.size i * nza.2))) c
      else 0 := by
  rw [List.filter_map, pairs, List.map_map]
  by_cases same : nza.1 = j
  · simp [same, Function.comp_def]
  · simp [same, Function.comp_def]

/-- **A generated row adds one product to an entry of the matrix**, when it contains both
columns. -/
theorem coefficient_rowPart (distinct : (keys (p.row i)).Nodup) :
    coefficient (p.rowPart i j) c =
      if j ∈ keys (p.row i) ∧ c ∈ keys (p.row i) then
        p.ratio ^ i * p.aelt i j * p.aelt i c + if c = j ∧ j = i then p.rcond - p.shift else 0
      else 0 := by
  have passes : coefficient (p.rowPart i j) c =
      coefficient ((p.row i).map fun nza =>
        (nza.1, coefficient ((p.row i).map fun nzrow =>
          (nzrow.1, elementValue p i nza.1 nzrow.1 nzrow.2 (p.size i * nza.2))) c)) j := by
    rw [Problem.rowPart, Problem.rowProducts, List.filter_flatMap, pairs, List.map_flatMap,
      coefficient_flatMap, coefficient_eq_sum_map, List.map_map]
    exact congrArg List.sum (List.map_congr_left fun nza _ => coefficient_pass nza)
  rw [passes, coefficient_map distinct, coefficient_map distinct, ← ite_and]
  refine if_congr Iff.rfl ?_ rfl
  rw [elementValue, Problem.aelt, Problem.aelt, p.size_eq_pow]
  split_ifs with diagonal
  · ring
  · ring

theorem mem_keys_rowPart : c ∈ keys (p.rowPart i j) ↔ j ∈ keys (p.row i) ∧ c ∈ keys (p.row i) := by
  simp [Problem.rowPart, pairs, keys, Problem.rowProducts]

theorem mem_keys_rowElements : c ∈ keys (pairs (p.rowElements j)) ↔ c ∈ p.columns j := by
  rw [p.pairs_rowElements, keys, List.map_flatMap, List.mem_flatMap, Problem.columns,
    Finset.mem_biUnion]
  simp only [List.mem_range, Finset.mem_filter, Finset.mem_range, List.mem_toFinset, and_assoc]
  exact exists_congr fun i => and_congr_right fun _ => mem_keys_rowPart

/-- A row of the matrix has one pair for each of its columns. -/
theorem length_rowSums : (p.rowSums j).length = (p.columns j).card := by
  rw [Problem.rowSums, length_sums]
  congr 1
  ext c
  rw [List.mem_toFinset, mem_keys_rowElements]

/-- **The sums of a row are the entries of the sum of the outer products.** -/
theorem coefficient_rowSums (distinct : ∀ i < p.n, (keys (p.row i)).Nodup)
    (own : ∀ i < p.n, i ∈ keys (p.row i)) (within : j < p.n) :
    coefficient (p.rowSums j) c =
      p.outerProducts j c + if j = c then p.rcond - p.shift else 0 := by
  have parts : ((List.range p.n).map fun i => coefficient (p.rowPart i j) c).sum =
      ∑ i ∈ Finset.range p.n, coefficient (p.rowPart i j) c := rfl
  have terms : ∀ i ∈ Finset.range p.n, coefficient (p.rowPart i j) c =
      (if j ∈ keys (p.row i) ∧ c ∈ keys (p.row i) then
          p.ratio ^ i * p.aelt i j * p.aelt i c else 0) +
        if i = j then (if j = c then p.rcond - p.shift else 0) else 0 := by
    intro i member
    rw [coefficient_rowPart (distinct i (Finset.mem_range.mp member))]
    by_cases diagonal : i = j ∧ j = c
    · obtain ⟨rfl, rfl⟩ := diagonal
      have present := own i (Finset.mem_range.mp member)
      simp [present]
    · have offDiagonal : ¬ (c = j ∧ j = i) := fun both => diagonal ⟨both.2.symm, both.1.symm⟩
      rw [if_neg offDiagonal, add_zero, ← ite_and, if_neg diagonal, add_zero]
  rw [Problem.rowSums, coefficient_sums, p.pairs_rowElements, coefficient_flatMap, parts,
    Finset.sum_congr rfl terms, Finset.sum_add_distrib, Problem.outerProducts, Finset.sum_filter,
    Finset.sum_ite_eq', if_pos (Finset.mem_range.mpr within)]

end Rows

/-! ## The arrays -/

section Arrays

variable {R : Type} [CommRing R] {p : Problem R} {before : Memory R} {result : Assembled R}

theorem IsAssembled.rowstr_succ (assembled : IsAssembled p before result) {j : ℕ}
    (within : j < p.n) : result.rowstr (j + 1) = result.rowstr j + (p.rowSums j).length := by
  rw [assembled.rowstr (j + 1) within, assembled.rowstr j within.le, p.finalStart_succ]

/-- A row of the arrays holds the sums of its elements. -/
theorem IsAssembled.position (assembled : IsAssembled p before result) {j : ℕ} (within : j < p.n)
    {t : ℕ} {item : ℕ × R} (there : (p.rowSums j)[t]? = some item) :
    result.colidx (result.rowstr j + t) = item.1 ∧ result.a (result.rowstr j + t) = item.2 := by
  have inside : t < (p.rowSums j).length := (List.getElem?_eq_some_iff.mp there).1
  have counted := p.duplicates_add_length j
  have nonneg := p.duplicates_nonneg j
  have represents := p.finalRow_represents j
  have room : p.rowStart j + t < p.rowStart (j + 1) := by
    rw [p.rowStart_succ]
    omega
  have next := p.finalStart_succ j
  obtain ⟨amount, column⟩ := assembled.inRow j within (p.finalStart j + t) (by omega) (by omega)
  have place : p.copiedFrom j (p.finalStart j + t) = p.rowStart j + t := by
    rw [Problem.copiedFrom]
    omega
  rw [assembled.rowstr j within.le, amount, column, place, represents.column t room,
    represents.amount t room, there]
  exact ⟨rfl, rfl⟩

/-- Every position of a row holds one of its pairs. -/
theorem IsAssembled.exists_item (assembled : IsAssembled p before result) {j : ℕ}
    (within : j < p.n) {k : ℤ} (lower : result.rowstr j ≤ k) (upper : k < result.rowstr (j + 1)) :
    ∃ t : ℕ, k = result.rowstr j + t ∧ t < (p.rowSums j).length := by
  rw [assembled.rowstr_succ within] at upper
  exact ⟨(k - result.rowstr j).toNat, by omega, by omega⟩

/-- The entry of the arrays is the amount in the column. -/
theorem IsAssembled.entry_eq (assembled : IsAssembled p before result) {j : ℕ} (within : j < p.n)
    (c : ℕ) : result.entry j c = coefficient (p.rowSums j) c := by
  rw [Assembled.entry, coefficient_eq_sum_map, upto, assembled.rowstr_succ within, List.map_map]
  congr 1
  refine List.ext_getElem (by simp) fun t inRange inside => ?_
  have there := List.getElem?_eq_getElem (by simpa using inside : t < (p.rowSums j).length)
  obtain ⟨column, amount⟩ := assembled.position within there
  simp [column, amount]

/-- **The assembled arrays hold the sum of the outer products.** -/
theorem IsAssembled.isOuterProducts (assembled : IsAssembled p before result)
    (distinct : ∀ i < p.n, (keys (p.row i)).Nodup) (own : ∀ i < p.n, i ∈ keys (p.row i)) :
    IsOuterProducts p result where
  rowstr := by
    intro j within
    induction j with
    | zero => rw [assembled.rowstr 0 within, p.finalStart_zero, Finset.sum_range_zero]
    | succ j ih =>
        rw [assembled.rowstr_succ within, ih (Nat.le_of_succ_le within), Finset.sum_range_succ,
          length_rowSums]
  increasing := by
    intro j within k l lower less upper
    obtain ⟨s, rfl, insideS⟩ := assembled.exists_item within lower (less.trans upper)
    obtain ⟨t, rfl, insideT⟩ := assembled.exists_item within (lower.trans less.le) upper
    rw [(assembled.position within (List.getElem?_eq_getElem insideS)).1,
      (assembled.position within (List.getElem?_eq_getElem insideT)).1]
    have ordered := List.pairwise_iff_getElem.mp (increasing_sums (pairs (p.rowElements j))) s t
      (by simpa [keys, Problem.rowSums] using insideS)
      (by simpa [keys, Problem.rowSums] using insideT) (by omega)
    simpa [keys, Problem.rowSums] using ordered
  filled := by
    intro j within k lower upper
    obtain ⟨t, rfl, inside⟩ := assembled.exists_item within lower upper
    refine ⟨(p.rowSums j)[t].1, ?_,
      (assembled.position within (List.getElem?_eq_getElem inside)).1⟩
    rw [← mem_keys_rowElements, ← mem_keys_sums]
    exact List.mem_map.mpr ⟨_, List.getElem_mem inside, rfl⟩
  entry := by
    intro j within c
    rw [assembled.entry_eq within, coefficient_rowSums distinct own within]

end Arrays

/-! ## One ULT alone -/

section Alone

variable {R : Type} [CommRing R] (p : Problem R)

/-- The loop nests of `sparse`, without the barriers between them, which one ULT alone passes
at once. -/
def sparseNests : List Nest :=
  [.clearCounts, .countTriples, .sumCounts, .sumLast, .offsetRows, .preload, .fillRows,
    .sumDuplicates, .sumLast, .offsetDuplicates, .copy, .shift]

/-- `sparse`, called by one ULT alone. -/
def sparse (m : Memory R) : Memory R := execAll (exec p) (sparseNests.map (Action.mk (0 : Fin 1))) m

/-- Every run of one ULT alone takes its loop nests in their order. -/
theorem ensures_alone (m : Memory R) :
    Ensures (exec p) .free m (makea 1)
      (· = sparse p (exec p ⟨(0 : Fin 1), .generate⟩ m)) := by
  have alone : Exchange (exec p) .free [(0 : Fin 1)] (makea 1) m fun _ _ => True :=
    .of_commute (fun t => List.mem_singleton.mpr (Subsingleton.elim t 0)) (List.nodup_singleton _)
      (fun _ => trivial) (fun _ _ _ _ _ _ => trivial)
      fun t u _ different => absurd (Subsingleton.elim t u) different
  have nests : schedule [(0 : Fin 1)] (fun t => (makea 1 t).actions) 7 =
      ⟨0, .generate⟩ :: sparseNests.map (Action.mk (0 : Fin 1)) := rfl
  have inOrder : canonical (exec p) [(0 : Fin 1)] (makea 1) m 7 =
      sparse p (exec p ⟨(0 : Fin 1), .generate⟩ m) := by
    rw [canonical, nests, execAll_cons, sparse]
  rw [← inOrder]
  exact alone.ensures makea_disciplined (fun _ => rfl) (Policy.live_free _ _ _)

variable {p} in
/-- The loop nests of a round, one after the other. -/
theorem round_holds {before m : Memory R} {round : ℕ} (later : 0 < round)
    {items : List (Action 1)} (suffix : items <:+ (makea 1 (0 : Fin 1)).actions round)
    (holds : Holds p before (0 : Fin 1) round items m) :
    Holds p before (0 : Fin 1) round [] (execAll (exec p) items m) := by
  induction items generalizing m with
  | nil => exact holds
  | cons action rest ih =>
      obtain ⟨frame, common, own⟩ := holds
      obtain ⟨-, turn⟩ := turn_of_suffix suffix
      have notFirst : action.nest = .generate → 1 ≤ p.maxThreads := by
        intro first
        have none := (first ▸ turn : Turn round .generate (nextNest rest)).of_generate
        omega
      have next := turn_holds (t := (0 : Fin 1)) notFirst turn frame common own
      rw [execAll_cons, exec, if_neg (by simp [frame.running]), Subsingleton.elim action.thread 0]
      exact ih ((List.suffix_cons _ _).trans suffix) ⟨next.frame, next.common, next.own⟩

/-- `sparse` with the generated rows given leaves the assembled arrays. -/
theorem sparse_isAssembled {m : Memory R} (running : m.exited = false)
    (given : ∀ i < p.n, m.triples i = p.row i) :
    (sparse p m).exited = false ∧ IsAssembled p m (sparse p m).assembled := by
  have first : Holds p m (0 : Fin 1) 1 ((makea 1 (0 : Fin 1)).actions 1) m :=
    ⟨⟨running, fun _ _ => rfl, fun _ _ => rfl, fun _ _ => rfl⟩, given, trivial⟩
  have onward : ∀ {round : ℕ} {m' : Memory R}, 0 < round → round < 6 →
      Holds p m (0 : Fin 1) round ((makea 1 (0 : Fin 1)).actions round) m' →
      Holds p m (0 : Fin 1) (round + 1) ((makea 1 (0 : Fin 1)).actions (round + 1))
        (execAll (exec p) ((makea 1 (0 : Fin 1)).actions round) m') := by
    intro round m' later more holds
    refine next_holds more (fun t => ?_) 0
    rw [Subsingleton.elim t 0]
    exact round_holds later (List.suffix_refl _) holds
  have last := onward (by omega) (by omega) (onward (by omega) (by omega) (onward (by omega)
    (by omega) (onward (by omega) (by omega) (onward (by omega) (by omega) first))))
  have rounds : sparseNests.map (Action.mk (0 : Fin 1)) =
      (makea 1 (0 : Fin 1)).actions 1 ++ (makea 1 (0 : Fin 1)).actions 2 ++
        (makea 1 (0 : Fin 1)).actions 3 ++ (makea 1 (0 : Fin 1)).actions 4 ++
        (makea 1 (0 : Fin 1)).actions 5 ++ (makea 1 (0 : Fin 1)).actions 6 := rfl
  refine isAssembled_of_holds one_pos fun t => ?_
  rw [Subsingleton.elim t 0, sparse, rounds]
  simp only [execAll_append]
  exact round_holds (by omega) (List.suffix_refl _) last

/-- **`sparse` assembles the sum of the outer products**, for all generated rows in which no
column repeats and row `i` has column `i`.  Called by one ULT alone, it does not exit, neither
for want of space nor with an internal error. -/
theorem sparse_assembles (distinct : ∀ i < p.n, (keys (p.row i)).Nodup)
    (own : ∀ i < p.n, i ∈ keys (p.row i)) (m : Memory R) (running : m.exited = false)
    (given : ∀ i < p.n, m.triples i = p.row i) :
    (sparse p m).exited = false ∧ IsOuterProducts p (sparse p m).assembled := by
  obtain ⟨alive, assembled⟩ := sparse_isAssembled p running given
  exact ⟨alive, assembled.isOuterProducts distinct own⟩

end Alone

/-! ## Three generated rows -/

/-- The numbers of `randlc`, in twos.  The second position drawn is 4, which is too large. -/
def fourDraws : List (ℚ × ℚ) := [(1 / 4, 1 / 2), (3 / 4, 3 / 4), (1 / 8, 0), (3 / 8, 0)]

/-- What `makea` generates for three rows with one position drawn for each. -/
def threeRows : List (List (ℕ × ℚ)) :=
  ((generateRows 3 1 4 (1 / 2) fourDraws 3).map Prod.fst).getD []

theorem generateRows_fourDraws : generateRows 3 1 4 (1 / 2) fourDraws 3 = some (threeRows, []) := by
  decide +kernel

theorem threeRows_eq : threeRows =
    [[(2, 1 / 4), (0, 1 / 2)], [(0, 1 / 8), (1, 1 / 2)], [(0, 3 / 8), (2, 1 / 2)]] := by
  decide +kernel

/-- The assembly of the three rows. -/
def threeRowProblem : Problem ℚ where
  n := 3
  nonzer := 1
  maxThreads := 1
  row := fun i => threeRows.getD i []
  row_length := by
    intro i
    rw [threeRows_eq]
    match i with
    | 0 | 1 | 2 => decide
    | _ + 3 => exact Nat.zero_le _
  rcond := 8
  shift := 1
  ratio := 2

/-- The memory in which the three rows are stored. -/
def threeRowMemory : Memory ℚ where
  v := fun _ => 0
  iv := fun _ => 0
  nzloc := fun _ => 0
  triples := threeRowProblem.row
  rowstr := fun _ => 0
  lastN := fun _ => 0
  a := fun _ => 0
  colidx := fun _ => 0
  nzrow := fun _ => 0
  exited := false

/-- Row 0 of the matrix has three columns, to the first of which all rows add. -/
theorem sparse_assembles_generated :
    (sparse threeRowProblem threeRowMemory).exited = false ∧
      IsOuterProducts threeRowProblem (sparse threeRowProblem threeRowMemory).assembled := by
  have stored : ∀ i < threeRowProblem.n, threeRows[i]? = some (threeRowProblem.row i) := by
    decide +kernel
  obtain ⟨distinct, own⟩ := threeRowProblem.rows_of_generated generateRows_fourDraws stored
  exact sparse_assembles threeRowProblem distinct own threeRowMemory rfl fun _ _ => rfl

end ArgobotsReduction.ConjugateGradient.Sparse
