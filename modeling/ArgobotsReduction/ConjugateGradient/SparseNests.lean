import ArgobotsReduction.Parallel.Tiling
import ArgobotsReduction.ConjugateGradient.SparseRows

/-!
# What the loop nests of `makea` and `sparse` do

For every loop nest, the values it leaves in the rows of its ULT when it finds
there what the nests before it left, and the rest of the memory, which it leaves
as it was.
-/

set_option autoImplicit false

namespace ArgobotsReduction.ConjugateGradient.Sparse

open Containers Parallel

variable {R : Type}

/-! ## The blocks of rows -/

section Blocks

variable (p : Problem R) {numThreads thread : ℕ}

/-- `j` is one of the rows of a ULT. -/
abbrev InBlock (numThreads thread j : ℕ) : Prop :=
  ilow p numThreads thread ≤ j ∧ j < ihigh p numThreads thread

/-- The rows of a ULT are a part of a tiling. -/
theorem mem_part_iff (positive : 0 < numThreads) {j : ℕ} :
    j ∈ (Tiling.roundedUp numThreads p.n positive).part thread ↔
      ilow p numThreads thread ≤ j ∧ j < ihigh p numThreads thread := by
  have next : (thread + 1) * work p numThreads =
      ilow p numThreads thread + work p numThreads := by
    rw [Nat.succ_mul, ilow, Nat.mul_comm]
  have low : thread * work p numThreads = ilow p numThreads thread := Nat.mul_comm _ _
  rw [Tiling.mem_part]
  change min (thread * work p numThreads) p.n ≤ j ∧
    j < min ((thread + 1) * work p numThreads) p.n ↔ _
  rw [next, low, ihigh]
  omega

theorem ihigh_le (numThreads thread : ℕ) : ihigh p numThreads thread ≤ p.n := min_le_right _ _

/-- Different ULTs have different rows. -/
theorem thread_unique (positive : 0 < numThreads) {other j : ℕ}
    (mine : ilow p numThreads thread ≤ j ∧ j < ihigh p numThreads thread)
    (theirs : ilow p numThreads other ≤ j ∧ j < ihigh p numThreads other) : thread = other :=
  Tiling.part_inj _ ((mem_part_iff p positive).mpr mine) ((mem_part_iff p positive).mpr theirs)

/-- Every row belongs to a ULT. -/
theorem exists_thread (positive : 0 < numThreads) {j : ℕ} (within : j < p.n) :
    ∃ thread : Fin numThreads,
      ilow p numThreads thread ≤ j ∧ j < ihigh p numThreads thread := by
  obtain ⟨t, ⟨below, inside⟩, -⟩ :=
    (Tiling.roundedUp numThreads p.n positive).existsUnique_part within
  exact ⟨⟨t, below⟩, (mem_part_iff p positive).mp inside⟩

/-- The ULTs before one with rows have rows, and together all the rows before. -/
theorem sum_blocks (nonempty : ilow p numThreads thread < ihigh p numThreads thread)
    (K : ℕ → ℤ) {f : ℕ → ℤ}
    (blocks : ∀ i, i < thread → ilow p numThreads i < ihigh p numThreads i →
      f i = K (ihigh p numThreads i) - K (ilow p numThreads i)) :
    ∑ i ∈ Finset.range thread, f i = K (ilow p numThreads thread) - K 0 := by
  have step : ∀ i, ilow p numThreads (i + 1) = ilow p numThreads i + work p numThreads :=
    fun i => Nat.mul_succ _ _
  have top : ilow p numThreads thread < p.n := nonempty.trans_le (ihigh_le p _ _)
  have positive : 0 < work p numThreads := by
    rw [ihigh] at nonempty
    omega
  have each : ∀ i ∈ Finset.range thread,
      f i = K (ilow p numThreads (i + 1)) - K (ilow p numThreads i) := by
    intro i member
    have before : i + 1 ≤ thread := Finset.mem_range.mp member
    have below : ilow p numThreads (i + 1) ≤ ilow p numThreads thread :=
      Nat.mul_le_mul_left _ before
    have high : ihigh p numThreads i = ilow p numThreads (i + 1) := by
      rw [ihigh, step]
      rw [step] at below
      omega
    rw [blocks i before (by rw [high, step]; omega), high]
  rw [Finset.sum_congr rfl each,
    Finset.sum_range_sub fun i => K (ilow p numThreads i)]
  rfl

/-- A row of another ULT is none of one's own. -/
theorem not_inBlock (positive : 0 < numThreads) {t u j : ℕ} (different : u ≠ t)
    (theirs : InBlock p numThreads u j) : ¬ InBlock p numThreads t j := fun mine =>
  different (thread_unique p positive theirs mine)

/-- The pointer behind a row of another ULT is none of one's own. -/
theorem not_boundary (positive : 0 < numThreads) {t u j : ℕ} (different : u ≠ t)
    (theirs : InBlock p numThreads u j) :
    ¬ (ilow p numThreads t < j + 1 ∧ j + 1 ≤ ihigh p numThreads t) := fun mine =>
  not_inBlock p positive different theirs ⟨by omega, by omega⟩

theorem ilow_zero : ilow p numThreads 0 = 0 := Nat.mul_zero _

end Blocks

/-! ## The generated rows and the row pointers -/

section Counts

variable (p : Problem R) {numThreads thread : ℕ} {m : Memory R}

theorem generate_own (enough : numThreads ≤ p.maxThreads) {i : ℕ}
    (mine : InBlock p numThreads thread i) :
    (generate p numThreads thread m).triples i = p.row i := by
  rw [generate, if_neg (Nat.not_lt.mpr enough)]
  exact loop_store id (fun k _ (same : k = i) => same ▸ rfl)
    (.inl ⟨i, mem_span.mpr mine, rfl⟩)

theorem generate_other (enough : numThreads ≤ p.maxThreads) (thread : ℕ) (m : Memory R) :
    generate p numThreads thread m =
        { m with triples := (generate p numThreads thread m).triples } ∧
      ∀ i, ¬ InBlock p numThreads thread i →
        (generate p numThreads thread m).triples i = m.triples i := by
  rw [generate, if_neg (Nat.not_lt.mpr enough)]
  exact ⟨rfl, fun i theirs => loop_update_of_ne id
    (fun k member (same : i = k) => theirs (same ▸ mem_span.mp member)) _⟩

theorem clearCounts_own {j : ℕ} (mine : InBlock p numThreads thread j) :
    (clearCounts p numThreads thread m).rowstr (j + 1) = 0 :=
  loop_store id (fun _ _ _ => rfl) (.inl ⟨j + 1, mem_span.mpr (by omega), rfl⟩)

theorem clearCounts_other {k : ℕ}
    (theirs : ¬ (ilow p numThreads thread < k ∧ k ≤ ihigh p numThreads thread)) :
    (clearCounts p numThreads thread m).rowstr k = m.rowstr k :=
  loop_update_of_ne id (fun j member (same : k = j) => by
    rw [mem_span] at member
    omega) _

/-- The count of the triples is one tally over all triples. -/
theorem countTriples_eq (k : ℕ) :
    (countTriples p numThreads thread m).rowstr k = m.rowstr k +
      (((((List.range p.n).flatMap fun i => (m.triples i).map fun triple =>
        (triple.1, ((m.triples i).length : ℤ))).filter fun e =>
          decide (InBlock p numThreads thread e.1)).filter fun e =>
            decide (e.1 + 1 = k)).map Prod.snd).sum := by
  have flat : (countTriples p numThreads thread m).rowstr =
      loop ((List.range p.n).flatMap fun i => (m.triples i).map fun triple =>
        (triple.1, ((m.triples i).length : ℤ)))
        (fun e rowstr => if InBlock p numThreads thread e.1 then
          Function.update rowstr (e.1 + 1) (rowstr (e.1 + 1) + e.2) else rowstr) m.rowstr := by
    rw [loop_flatMap]
    simp only [loop_map]
    rfl
  rw [flat]
  exact (congrFun (loop_filter _ (fun e : ℕ × ℤ => InBlock p numThreads thread e.1)
    (fun e rowstr => Function.update rowstr (e.1 + 1) (rowstr (e.1 + 1) + e.2)) m.rowstr) k).trans
      (loop_tally (fun e : ℕ × ℤ => e.1 + 1) Prod.snd m.rowstr k)

theorem countTriples_other {k : ℕ}
    (theirs : ¬ (ilow p numThreads thread < k ∧ k ≤ ihigh p numThreads thread)) :
    (countTriples p numThreads thread m).rowstr k = m.rowstr k := by
  rw [countTriples_eq, List.filter_filter]
  have none : ∀ items : List (ℕ × ℤ), items.filter (fun e =>
      decide (e.1 + 1 = k) && decide (InBlock p numThreads thread e.1)) = [] := by
    intro items
    rw [List.filter_eq_nil_iff]
    intro e _
    simp only [Bool.and_eq_true, decide_eq_true_eq]
    omega
  rw [none, List.map_nil, List.sum_nil, add_zero]

/-- The triples of a generated row that fall on row `j` announce its elements. -/
theorem sum_triples_eq [One R] [Add R] [Sub R] [Mul R] (i j : ℕ) :
    ((((p.row i).map fun triple => (triple.1, ((p.row i).length : ℤ))).filter fun e =>
      decide (e.1 = j)).map Prod.snd).sum =
        ((p.rowProducts i).filter fun e => decide (e.row = j)).length := by
  have each : ∀ items : List (ℕ × R),
      (((items.map fun triple => (triple.1, ((p.row i).length : ℤ))).filter fun e =>
        decide (e.1 = j)).map Prod.snd).sum =
          (((items.flatMap fun nza => (p.row i).map fun nzrow =>
            (⟨nza.1, nzrow.1, elementValue p i nza.1 nzrow.1 nzrow.2 (p.size i * nza.2)⟩ :
              Element R)).filter fun e => decide (e.row = j)).length : ℤ) := by
    intro items
    induction items with
    | nil => rfl
    | cons nza items ih =>
        rw [List.map_cons, List.flatMap_cons, List.filter_append, List.length_append,
          List.filter_map, Nat.cast_add, ← ih]
        by_cases here : nza.1 = j
        · have all : (p.row i).filter ((fun e : Element R => decide (e.row = j)) ∘ fun nzrow =>
              ⟨nza.1, nzrow.1, elementValue p i nza.1 nzrow.1 nzrow.2 (p.size i * nza.2)⟩) =
                p.row i := by
            simp [List.filter_eq_self, here]
          rw [List.filter_cons_of_pos (by simpa using here), all, List.map_cons, List.sum_cons,
            List.length_map]
        · have none : (p.row i).filter ((fun e : Element R => decide (e.row = j)) ∘ fun nzrow =>
              ⟨nza.1, nzrow.1, elementValue p i nza.1 nzrow.1 nzrow.2 (p.size i * nza.2)⟩) =
                [] := by
            simp [List.filter_eq_nil_iff, here]
          rw [List.filter_cons_of_neg (by simpa using here), none]
          simp
  exact each (p.row i)

theorem countTriples_own [One R] [Add R] [Sub R] [Mul R]
    (generated : ∀ i < p.n, m.triples i = p.row i) {j : ℕ}
    (mine : InBlock p numThreads thread j) (cleared : m.rowstr (j + 1) = 0) :
    (countTriples p numThreads thread m).rowstr (j + 1) = (p.rowElements j).length := by
  have ofRow : ∀ items : List (ℕ × ℤ),
      (items.filter fun e => decide (InBlock p numThreads thread e.1)).filter
        (fun e => decide (e.1 + 1 = j + 1)) = items.filter fun e => decide (e.1 = j) := by
    intro items
    rw [List.filter_filter]
    refine List.filter_congr fun e _ => ?_
    by_cases here : e.1 = j
    · simp [here, mine]
    · simp [here]
  rw [countTriples_eq, cleared, zero_add, ofRow, Problem.rowElements, Problem.elements]
  have upTo : ∀ k ≤ p.n, ((((List.range k).flatMap fun i => (m.triples i).map fun triple =>
      (triple.1, ((m.triples i).length : ℤ))).filter fun e => decide (e.1 = j)).map Prod.snd).sum =
        ((((List.range k).flatMap p.rowProducts).filter fun e =>
          decide (e.row = j)).length : ℤ) := by
    intro k within
    induction k with
    | zero => rfl
    | succ k ih =>
        simp only [List.range_succ, List.flatMap_append, List.flatMap_singleton,
          List.filter_append, List.map_append, List.sum_append, List.length_append, Nat.cast_add]
        rw [ih (by omega), generated k (by omega), sum_triples_eq]
  exact upTo p.n le_rfl

theorem firstBoundary_le (j : ℕ) (mine : InBlock p numThreads thread j) :
    firstBoundary p numThreads thread ≤ j + 1 := by
  unfold firstBoundary
  split_ifs
  · exact Nat.zero_le _
  · exact Nat.succ_le_succ mine.1

theorem lt_of_firstBoundary_lt {k : ℕ} (above : firstBoundary p numThreads thread < k) :
    ilow p numThreads thread < k := by
  unfold firstBoundary at above
  split_ifs at above with first
  · rw [first, ilow_zero]
    exact above
  · omega

theorem sumCounts_other {k : ℕ}
    (theirs : ¬ (ilow p numThreads thread < k ∧ k ≤ ihigh p numThreads thread))
    (notFirst : thread = 0 → k ≠ 0) :
    (sumCounts p numThreads thread m).rowstr k = m.rowstr k := by
  have elsewhere : ∀ j ∈ span (firstBoundary p numThreads thread + 1)
      (ihigh p numThreads thread + 1), k ≠ j := by
    rintro j member rfl
    rw [mem_span] at member
    exact theirs ⟨lt_of_firstBoundary_lt p member.1, by omega⟩
  refine (loop_update_of_ne id elsewhere _).trans ?_
  split_ifs with first
  · exact Function.update_of_ne (notFirst first) _ _
  · rfl

/-- The sum of what the ULTs before left in `last_n` is the value at the first row. -/
theorem sumLast_own {K : ℕ → ℤ} (zero : K 0 = 0)
    (stored : ∀ i, i < thread → ilow p numThreads i < ihigh p numThreads i →
      m.lastN i = K (ihigh p numThreads i) - K (ilow p numThreads i))
    (some : ilow p numThreads thread < ihigh p numThreads thread ∨ thread = 0) :
    (sumLast thread m).nzrow thread = K (ilow p numThreads thread) := by
  change Function.update m.nzrow thread _ thread = _
  rw [Function.update_self, loop_add, zero_add]
  rcases some with nonempty | rfl
  · rw [sum_blocks p nonempty K stored, zero, sub_zero]
  · simp [ilow_zero, zero]

end Counts

section Sums

variable [One R] [Add R] [Sub R] [Mul R] (p : Problem R) {numThreads thread : ℕ} {m : Memory R}

/-- The running sums of a ULT are its row pointers, counted from its first row. -/
theorem sumCounts_rowstr
    (counted : ∀ j, InBlock p numThreads thread j → m.rowstr (j + 1) = (p.rowElements j).length)
    (some : ilow p numThreads thread < ihigh p numThreads thread ∨ thread = 0) {k : ℕ}
    (lower : firstBoundary p numThreads thread ≤ k) (upper : k ≤ ihigh p numThreads thread) :
    (sumCounts p numThreads thread m).rowstr k =
      p.rowStart k - p.rowStart (ilow p numThreads thread) := by
  refine loop_runningSum _ (fun k => p.rowStart k - p.rowStart (ilow p numThreads thread)) ?_ ?_
    lower (Nat.lt_succ_of_le upper)
  · rcases eq_or_ne thread 0 with rfl | other
    · simp [firstBoundary, ilow_zero]
    · have mine : InBlock p numThreads thread (ilow p numThreads thread) :=
        ⟨le_rfl, some.resolve_right other⟩
      simp only [firstBoundary, if_neg other]
      rw [counted _ mine, p.rowStart_succ]
      omega
  · intro k above below
    have mine : InBlock p numThreads thread k := by
      refine ⟨?_, by omega⟩
      rcases eq_or_ne thread 0 with rfl | other
      · rw [ilow_zero]
        exact Nat.zero_le k
      · rw [firstBoundary, if_neg other] at above
        omega
    have stored : (if thread = 0 then Function.update m.rowstr 0 0 else m.rowstr) (k + 1) =
        m.rowstr (k + 1) := by
      split_ifs
      · exact Function.update_of_ne (Nat.succ_ne_zero k) _ _
      · rfl
    rw [stored, counted k mine, p.rowStart_succ]
    omega

theorem offsetRows_own
    (offset : ilow p numThreads thread < ihigh p numThreads thread ∨ thread = 0 →
      m.nzrow thread = p.rowStart (ilow p numThreads thread)) {j : ℕ}
    (mine : InBlock p numThreads thread j) :
    (offsetRows p numThreads thread m).rowstr (j + 1) =
      m.rowstr (j + 1) + p.rowStart (ilow p numThreads thread) := by
  have same := offset (.inl (mine.1.trans_lt mine.2))
  unfold offsetRows
  split_ifs with positive
  · rw [← same]
    exact loop_change (nodup_span _ _) (fun _ x => x + m.nzrow thread) m.rowstr
      (mem_span.mpr ⟨firstBoundary_le p j mine, by omega⟩)
  · have nonneg := p.rowStart_mono (Nat.zero_le (ilow p numThreads thread))
    rw [p.rowStart_zero] at nonneg
    omega

theorem offsetRows_other
    (offset : ilow p numThreads thread < ihigh p numThreads thread ∨ thread = 0 →
      m.nzrow thread = p.rowStart (ilow p numThreads thread)) :
    offsetRows p numThreads thread m =
        { m with rowstr := (offsetRows p numThreads thread m).rowstr } ∧
      ∀ k, ¬ (ilow p numThreads thread < k ∧ k ≤ ihigh p numThreads thread) →
        (offsetRows p numThreads thread m).rowstr k = m.rowstr k := by
  unfold offsetRows
  split_ifs with positive
  · refine ⟨rfl, fun k theirs => loop_update_of_ne id ?_ _⟩
    rintro j member rfl
    rw [mem_span] at member
    rcases eq_or_ne thread 0 with rfl | other
    · -- the first ULT has nothing to add
      have nothing := offset (.inr rfl)
      rw [ilow_zero, p.rowStart_zero] at nothing
      omega
    · rw [firstBoundary, if_neg other] at member
      exact theirs ⟨by omega, by omega⟩
  · exact ⟨rfl, fun _ _ => rfl⟩

end Sums

/-! ## The values -/

section Preload

variable [Zero R] (first stop : ℤ) (j : ℕ) (w : Work R)

theorem preloadRow_v : (preloadRow first stop j w).v =
    loop (upto first stop) (fun k v => Function.update v k 0) w.v :=
  loop_hom Work.v (fun k v => Function.update v k 0) (fun _ _ _ => rfl) w

theorem preloadRow_iv : (preloadRow first stop j w).iv =
    loop (upto first stop) (fun k iv => Function.update iv k (-1)) w.iv :=
  loop_hom Work.iv (fun k iv => Function.update iv k (-1)) (fun _ _ _ => rfl) w

theorem preloadRow_nzloc : (preloadRow first stop j w).nzloc = Function.update w.nzloc j 0 := by
  have kept : (loop (upto first stop) (fun k (w : Work R) =>
      { w with v := Function.update w.v k 0, iv := Function.update w.iv k (-1) }) w).nzloc =
      w.nzloc := by
    refine loop_keeps (fun z : Work R => z.nzloc = w.nzloc) (fun _ _ z same => ?_) rfl
    exact same
  exact congrArg (Function.update · j 0) kept

theorem preloadRow_own : SameRow first stop j (preloadRow first stop j w) fresh where
  v := fun k lower upper => by
    rw [preloadRow_v]
    exact loop_store id (fun _ _ _ => rfl) (.inl ⟨k, mem_upto.mpr ⟨lower, upper⟩, rfl⟩)
  iv := fun k lower upper => by
    rw [preloadRow_iv]
    exact loop_store id (fun _ _ _ => rfl) (.inl ⟨k, mem_upto.mpr ⟨lower, upper⟩, rfl⟩)
  nzloc := by
    rw [preloadRow_nzloc, Function.update_self]
    rfl

theorem preloadRow_frame : OutsideRow first stop j w (preloadRow first stop j w) where
  v := fun k outside => by
    rw [preloadRow_v]
    exact loop_update_of_ne id
      (fun i member (same : k = i) => outside (same ▸ mem_upto.mp member)) _
  iv := fun k outside => by
    rw [preloadRow_iv]
    exact loop_update_of_ne id
      (fun i member (same : k = i) => outside (same ▸ mem_upto.mp member)) _
  nzloc := fun i other => by
    rw [preloadRow_nzloc, Function.update_of_ne other]

end Preload

section Duplicates

variable (p : Problem R) {numThreads thread : ℕ} {m : Memory R}

theorem sumDuplicates_other {j : ℕ} (theirs : ¬ InBlock p numThreads thread j) :
    (sumDuplicates p numThreads thread m).nzloc j = m.nzloc j :=
  loop_update_of_ne id (fun k member (same : j = k) => by
    rw [mem_span] at member
    exact theirs ⟨by omega, by omega⟩) _

theorem offsetDuplicates_other (numThreads thread : ℕ) (m : Memory R) :
    offsetDuplicates p numThreads thread m =
        { m with nzloc := (offsetDuplicates p numThreads thread m).nzloc } ∧
      ∀ j, ¬ InBlock p numThreads thread j →
        (offsetDuplicates p numThreads thread m).nzloc j = m.nzloc j := by
  unfold offsetDuplicates
  split_ifs with positive
  · exact ⟨rfl, fun j theirs => loop_update_of_ne id
      (fun k member (same : j = k) => theirs (same ▸ mem_span.mp member)) _⟩
  · exact ⟨rfl, fun _ _ => rfl⟩

end Duplicates

section Values

variable [Zero R] [One R] [Add R] [Sub R] [Mul R] (p : Problem R) {numThreads thread : ℕ}
  {m : Memory R}

/-- The row pointers are in place. -/
def Pointers (m : Memory R) : Prop := ∀ j ≤ p.n, m.rowstr j = p.rowStart j

/-- Row `j` of two workspaces is the same. -/
abbrev Problem.SameRowOf (j : ℕ) (w w' : Work R) : Prop :=
  SameRow (p.rowStart j) (p.rowStart (j + 1)) j w w'

theorem preload_spec (pointers : Pointers p m) (thread : ℕ) :
    ∃ w, preload p numThreads thread m = { m with toWork := w } ∧
      (∀ j, InBlock p numThreads thread j → p.SameRowOf j w fresh) ∧
      ∀ j, ¬ InBlock p numThreads thread j → p.SameRowOf j w m.toWork := by
  have fits : ¬ m.rowstr p.n - 1 > p.nz := by
    have bound := p.rowStart_le_nz p.n
    rw [pointers p.n le_rfl]
    omega
  have rows : ∀ j ∈ span (ilow p numThreads thread) (ihigh p numThreads thread),
      m.rowstr j = p.rowStart j ∧ m.rowstr (j + 1) = p.rowStart (j + 1) := by
    intro j member
    rw [mem_span] at member
    have high := ihigh_le p numThreads thread
    exact ⟨pointers j (by omega), pointers (j + 1) (by omega)⟩
  rw [preload, if_neg fits]
  refine ⟨_, rfl, fun j mine => ?_, fun j theirs => ?_⟩
  · refine loop_establishes (fun j w => p.SameRowOf j w fresh) (fun i member w => ?_)
      (fun i member j other w holds => ?_) (mem_span.mpr mine) m.toWork
    · rw [(rows i member).1, (rows i member).2]
      exact preloadRow_own ..
    · rw [(rows i member).1, (rows i member).2]
      exact ((preloadRow_frame ..).sameRow (p.rowStart_apart other.symm) other).trans holds
  · refine loop_keeps (fun w => p.SameRowOf j w m.toWork) (fun i member w holds => ?_)
      (.refl ..)
    have other : j ≠ i := fun here => theirs (here ▸ mem_span.mp member)
    rw [(rows i member).1, (rows i member).2]
    exact ((preloadRow_frame ..).sameRow (p.rowStart_apart other.symm) other).trans holds

theorem fillRows_spec (generated : ∀ i < p.n, m.triples i = p.row i) (pointers : Pointers p m)
    (empty : ∀ j, InBlock p numThreads thread j → p.SameRowOf j m.toWork fresh) :
    ∃ w, fillRows p numThreads thread m = { m with toWork := w } ∧
      (∀ j, InBlock p numThreads thread j → p.SameRowOf j w (p.finalRow j)) ∧
      ∀ j, ¬ InBlock p numThreads thread j → p.SameRowOf j w m.toWork := by
  have rows : ∀ e ∈ p.blockElements (ilow p numThreads thread) (ihigh p numThreads thread),
      m.rowstr e.row = p.rowStart e.row ∧ m.rowstr (e.row + 1) = p.rowStart (e.row + 1) := by
    intro e member
    have inside := (List.mem_filter.mp member).2
    have high := ihigh_le p numThreads thread
    rw [decide_eq_true_eq] at inside
    exact ⟨pointers _ (by omega), pointers _ (by omega)⟩
  obtain ⟨w, summed, own, others⟩ := p.addAll_block fun j lower upper => empty j ⟨lower, upper⟩
  refine ⟨w, ?_, fun j mine => own j mine.1 mine.2, others⟩
  rw [fillRows, fillLoop_eq p generated, addAll_congr rows, summed]
  rfl

theorem sumDuplicates_nzloc
    (counted : ∀ j, InBlock p numThreads thread j → m.nzloc j = p.duplicates j) {j : ℕ}
    (mine : InBlock p numThreads thread j) :
    (sumDuplicates p numThreads thread m).nzloc j =
      p.duplicatesBefore (j + 1) - p.duplicatesBefore (ilow p numThreads thread) := by
  refine loop_runningSum m.nzloc
    (fun j => p.duplicatesBefore (j + 1) - p.duplicatesBefore (ilow p numThreads thread))
    ?_ (fun k lower upper => ?_) mine.1 mine.2
  · rw [counted _ ⟨le_rfl, mine.1.trans_lt mine.2⟩, p.duplicatesBefore_succ]
    omega
  · rw [counted _ ⟨by omega, upper⟩, p.duplicatesBefore_succ (k + 1)]
    omega

theorem sumDuplicates_lastN
    (counted : ∀ j, InBlock p numThreads thread j → m.nzloc j = p.duplicates j)
    (nonempty : ilow p numThreads thread < ihigh p numThreads thread) :
    (sumDuplicates p numThreads thread m).lastN thread =
      p.duplicatesBefore (ihigh p numThreads thread) -
        p.duplicatesBefore (ilow p numThreads thread) := by
  have last : InBlock p numThreads thread (ihigh p numThreads thread - 1) := by
    constructor <;> omega
  have sum := sumDuplicates_nzloc p counted last
  rw [Nat.sub_add_cancel (by omega)] at sum
  exact (Function.update_self ..).trans sum

theorem offsetDuplicates_own
    (offset : ilow p numThreads thread < ihigh p numThreads thread ∨ thread = 0 →
      m.nzrow thread = p.duplicatesBefore (ilow p numThreads thread)) {j : ℕ}
    (mine : InBlock p numThreads thread j) :
    (offsetDuplicates p numThreads thread m).nzloc j =
      m.nzloc j + p.duplicatesBefore (ilow p numThreads thread) := by
  have same := offset (.inl (mine.1.trans_lt mine.2))
  unfold offsetDuplicates
  split_ifs with positive
  · rw [← same]
    exact loop_change (nodup_span _ _) (fun _ x => x + m.nzrow thread) m.nzloc
      (mem_span.mpr mine)
  · have nonneg := p.duplicatesBefore_nonneg (ilow p numThreads thread)
    omega

end Values

/-! ## The compacted rows -/

section CopyBlocks

variable (p : Problem R) {numThreads thread : ℕ} {m : Memory R}

/-- `j` is one of the rows a ULT copies. -/
abbrev InCopy (numThreads thread j : ℕ) : Prop :=
  jStart p numThreads thread ≤ j ∧ j < jStop p numThreads thread

/-- The rows a ULT copies are a part of a tiling. -/
theorem mem_copyPart_iff (within : thread < numThreads) {j : ℕ} :
    j ∈ (Tiling.lastTakesRest numThreads p.n (Nat.zero_lt_of_lt within)).part thread ↔
      InCopy p numThreads thread j := by
  have next : (thread + 1) * (p.n / numThreads) =
      thread * (p.n / numThreads) + p.n / numThreads := Nat.succ_mul _ _
  rw [Tiling.mem_part]
  change (if thread < numThreads then thread * (p.n / numThreads) else p.n) ≤ j ∧
    j < (if thread + 1 < numThreads then (thread + 1) * (p.n / numThreads) else p.n) ↔ _
  rw [if_pos within, next, InCopy, jStop, jStart, nrowsPerThread]
  by_cases last : thread + 1 = numThreads
  · rw [if_neg (by omega), if_pos last]
  · rw [if_pos (by omega), if_neg last]

theorem jStop_le (within : thread < numThreads) : jStop p numThreads thread ≤ p.n := by
  have bound := (Tiling.lastTakesRest numThreads p.n (Nat.zero_lt_of_lt within)).cut_le_total
    (Nat.succ_le_of_lt within)
  change (if thread + 1 < numThreads then (thread + 1) * (p.n / numThreads) else p.n) ≤ p.n
    at bound
  rw [jStop, jStart, nrowsPerThread]
  split_ifs with last
  · exact le_rfl
  · rw [if_pos (by omega), Nat.succ_mul] at bound
    exact bound

theorem copyThread_unique (within : thread < numThreads) {other j : ℕ} (alive : other < numThreads)
    (mine : InCopy p numThreads thread j) (theirs : InCopy p numThreads other j) :
    thread = other :=
  Tiling.part_inj _ ((mem_copyPart_iff p within).mpr mine) ((mem_copyPart_iff p alive).mpr theirs)

/-- Every row is copied by a ULT. -/
theorem exists_copyThread (positive : 0 < numThreads) {j : ℕ} (within : j < p.n) :
    ∃ thread : Fin numThreads, InCopy p numThreads thread j := by
  obtain ⟨t, ⟨below, inside⟩, -⟩ :=
    (Tiling.lastTakesRest numThreads p.n positive).existsUnique_part within
  exact ⟨⟨t, below⟩, (mem_copyPart_iff p below).mp inside⟩

/-- The shift loop moves the pointers behind the rows that the copy loop copies. -/
theorem shift_eq :
    shift p numThreads thread m =
      { m with
        rowstr := loop (span (jStart p numThreads thread + 1) (jStop p numThreads thread + 1))
          (fun j rowstr => Function.update rowstr j (rowstr j - m.nzloc (j - 1))) m.rowstr } := by
  have first : 1 + thread * nrowsPerThread p numThreads = jStart p numThreads thread + 1 :=
    Nat.add_comm _ _
  have last : shiftStop p numThreads thread = jStop p numThreads thread + 1 := by
    rw [shiftStop, jStop]
    split_ifs
    · rfl
    · rw [first]
      omega
  rw [shift, first, last]

theorem shift_own {j : ℕ} (mine : InCopy p numThreads thread j) :
    (shift p numThreads thread m).rowstr (j + 1) = m.rowstr (j + 1) - m.nzloc j := by
  rw [shift_eq p]
  exact loop_change (nodup_span _ _) (fun j x => x - m.nzloc (j - 1)) m.rowstr
    (mem_span.mpr ⟨by omega, by omega⟩)

theorem shift_other {k : ℕ}
    (theirs : ∀ j, InCopy p numThreads thread j → k ≠ j + 1) :
    (shift p numThreads thread m).rowstr k = m.rowstr k := by
  rw [shift_eq p]
  refine loop_update_of_ne id ?_ _
  rintro i member rfl
  rw [mem_span] at member
  exact theirs (k - 1) ⟨by omega, by omega⟩ (by omega)

/-- A pointer that the copy loop of another ULT reads and the shift loop moves lies
on the border to the next ULT. -/
theorem border (within : thread < numThreads) {other j : ℕ} (alive : other < numThreads)
    (different : other ≠ thread) (mine : InCopy p numThreads thread j)
    (theirs : InCopy p numThreads other (j + 1)) :
    other = thread + 1 ∧ j + 1 = jStop p numThreads thread := by
  have notMine : ¬ InCopy p numThreads thread (j + 1) := fun both =>
    different (copyThread_unique p alive within theirs both)
  have few := jStop_le p alive
  have stop : j + 1 = jStop p numThreads thread := by omega
  refine ⟨?_, stop⟩
  have notLast : thread + 1 ≠ numThreads := fun last => by
    rw [jStop, if_pos last] at stop
    omega
  rw [InCopy, jStop, if_neg notLast] at mine
  rw [jStop, if_neg notLast] at stop
  have start := theirs.1
  simp only [jStart] at start stop mine
  have some : 0 < nrowsPerThread p numThreads := by omega
  have notAfter : other ≤ thread + 1 := by
    refine Nat.le_of_mul_le_mul_right ?_ some
    rw [Nat.succ_mul]
    omega
  have notBefore : thread < other := by
    by_contra before
    have earlier : other + 1 ≤ thread := by omega
    have product := Nat.mul_le_mul_right (nrowsPerThread p numThreads) earlier
    have stops := theirs.2
    rw [jStop, if_neg (by omega), jStart] at stops
    rw [Nat.succ_mul] at product
    omega
  omega

end CopyBlocks

section Copies

variable [Zero R] [One R] [Add R] [Sub R] [Mul R] (p : Problem R) {numThreads thread : ℕ}
  {m : Memory R}

/-- What the copy loop needs: row pointers and numbers of duplicates. -/
structure CopyReady (numThreads thread : ℕ) (m : Memory R) : Prop where
  first : ∀ j, InCopy p numThreads thread j → m.rowstr j = p.rowStart j
  next : ∀ j, InCopy p numThreads thread j → m.rowstr (j + 1) = p.rowStart (j + 1)
  duplicates : ∀ j < p.n, m.nzloc j = p.duplicatesBefore (j + 1)

/-- The positions a ULT copies to, each with its row. -/
def copyItems (numThreads thread : ℕ) : List (ℕ × ℤ) :=
  (span (jStart p numThreads thread) (jStop p numThreads thread)).flatMap fun j =>
    (upto (p.finalStart j) (p.finalStart (j + 1))).map (Prod.mk j)

theorem mem_copyItems {e : ℕ × ℤ} : e ∈ copyItems p numThreads thread ↔
    InCopy p numThreads thread e.1 ∧ p.finalStart e.1 ≤ e.2 ∧ e.2 < p.finalStart (e.1 + 1) := by
  obtain ⟨j, k⟩ := e
  simp only [copyItems, List.mem_flatMap, mem_span, List.mem_map, mem_upto, Prod.mk.injEq]
  constructor
  · rintro ⟨i, inside, x, bounds, rfl, rfl⟩
    exact ⟨inside, bounds⟩
  · rintro ⟨inside, bounds⟩
    exact ⟨j, inside, k, bounds, rfl, rfl⟩

/-- The position that is copied to position `k` of row `j`. -/
def Problem.copiedFrom (j : ℕ) (k : ℤ) : ℤ := p.rowStart j + (k - p.finalStart j)

theorem copy_eq (within : thread < numThreads) (ready : CopyReady p numThreads thread m) :
    copy p numThreads thread m =
      { m with
        a := loop (copyItems p numThreads thread)
          (fun e a => Function.update a e.2 (m.v (p.copiedFrom e.1 e.2))) m.a
        colidx := loop (copyItems p numThreads thread)
          (fun e colidx => Function.update colidx e.2 (m.iv (p.copiedFrom e.1 e.2)))
            m.colidx } := by
  have flat : (loop (span (jStart p numThreads thread) (jStop p numThreads thread))
      (fun j arrays =>
        let j1 := if j > 0 then m.rowstr j - m.nzloc (j - 1) else 0
        let j2 := m.rowstr (j + 1) - m.nzloc j
        loop (upto j1 j2)
          (fun k arrays =>
            let nza := m.rowstr j + (k - j1)
            (Function.update arrays.1 k (m.v nza), Function.update arrays.2 k (m.iv nza))) arrays)
      (m.a, m.colidx)) =
      loop (copyItems p numThreads thread)
        (fun e arrays => (Function.update arrays.1 e.2 (m.v (p.copiedFrom e.1 e.2)),
          Function.update arrays.2 e.2 (m.iv (p.copiedFrom e.1 e.2)))) (m.a, m.colidx) := by
    rw [copyItems, loop_flatMap]
    refine loop_hom id _ (fun j member arrays => ?_) _
    rw [mem_span] at member
    have few := jStop_le p within
    have start : (if j > 0 then m.rowstr j - m.nzloc (j - 1) else 0) = p.finalStart j := by
      split_ifs with later
      · rw [ready.first j member, ready.duplicates (j - 1) (by omega), Nat.sub_add_cancel later]
        rfl
      · obtain rfl : j = 0 := by omega
        exact p.finalStart_zero.symm
    have stop : m.rowstr (j + 1) - m.nzloc j = p.finalStart (j + 1) := by
      rw [ready.next j member, ready.duplicates j (by omega)]
      rfl
    simp only [id, start, stop, loop_map]
    rw [ready.first j member]
    rfl
  have parts : ∀ s : (ℤ → R) × (ℤ → ℤ), loop (copyItems p numThreads thread)
      (fun e arrays => (Function.update arrays.1 e.2 (m.v (p.copiedFrom e.1 e.2)),
        Function.update arrays.2 e.2 (m.iv (p.copiedFrom e.1 e.2)))) s =
      (loop (copyItems p numThreads thread)
        (fun e a => Function.update a e.2 (m.v (p.copiedFrom e.1 e.2))) s.1,
       loop (copyItems p numThreads thread)
        (fun e colidx => Function.update colidx e.2 (m.iv (p.copiedFrom e.1 e.2))) s.2) :=
    fun s => Prod.ext (loop_hom Prod.fst _ (fun _ _ _ => rfl) s)
      (loop_hom Prod.snd _ (fun _ _ _ => rfl) s)
  rw [copy, flat, parts]

/-- The copied rows. -/
theorem copy_own (within : thread < numThreads) (ready : CopyReady p numThreads thread m) {j : ℕ}
    (mine : InCopy p numThreads thread j) {k : ℤ} (lower : p.finalStart j ≤ k)
    (upper : k < p.finalStart (j + 1)) :
    (copy p numThreads thread m).a k = m.v (p.copiedFrom j k) ∧
      (copy p numThreads thread m).colidx k = m.iv (p.copiedFrom j k) := by
  have here : (j, k) ∈ copyItems p numThreads thread := (mem_copyItems p).mpr ⟨mine, lower, upper⟩
  have same : ∀ e ∈ copyItems p numThreads thread, e.2 = k → e.1 = j := by
    rintro e member rfl
    exact p.finalStart_unique ((mem_copyItems p).mp member).2 ⟨lower, upper⟩
  rw [copy_eq p within ready]
  constructor
  · exact loop_store Prod.snd (fun e member at' => by rw [same e member at', at'])
      (.inl ⟨_, here, rfl⟩)
  · exact loop_store Prod.snd (fun e member at' => by rw [same e member at', at'])
      (.inl ⟨_, here, rfl⟩)

theorem copy_other (within : thread < numThreads) (ready : CopyReady p numThreads thread m) :
    copy p numThreads thread m =
        { m with
          a := (copy p numThreads thread m).a
          colidx := (copy p numThreads thread m).colidx } ∧
      ∀ k, (∀ j, InCopy p numThreads thread j →
          ¬ (p.finalStart j ≤ k ∧ k < p.finalStart (j + 1))) →
        (copy p numThreads thread m).a k = m.a k ∧
          (copy p numThreads thread m).colidx k = m.colidx k := by
  rw [copy_eq p within ready]
  refine ⟨rfl, fun k theirs => ?_⟩
  have elsewhere : ∀ e ∈ copyItems p numThreads thread, k ≠ e.2 := by
    rintro e member rfl
    have inside := (mem_copyItems p).mp member
    exact theirs e.1 inside.1 inside.2
  exact ⟨loop_update_of_ne Prod.snd elsewhere _, loop_update_of_ne Prod.snd elsewhere _⟩

end Copies

end ArgobotsReduction.ConjugateGradient.Sparse
