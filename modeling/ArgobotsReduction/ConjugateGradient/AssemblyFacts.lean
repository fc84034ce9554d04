import ArgobotsReduction.ConjugateGradient.SparseNests

/-!
# What the ULTs know during the assembly

The assertions of a proof outline of `makea` and `sparse`.  In every round all
ULTs share some facts (`Common`), and between its loop nests each has facts of
its own about its rows (`Own`).

A loop nest of the first rounds takes its ULT to its next facts and keeps the
facts of the others (`Advances`).  In the last round the copy loop does so too,
and the shift loop with an exception: it moves a row pointer that the copy loop of
the next ULT reads (`shift_others`).
-/

set_option autoImplicit false

namespace ArgobotsReduction.ConjugateGradient.Sparse

open Containers Parallel

variable {R : Type}

/-! ## The assertions -/

section Assertions

variable [Zero R] [One R] [Add R] [Sub R] [Mul R] (p : Problem R) (numThreads : ℕ)

/-- The process runs, and the arrays are as they were where no ULT stores. -/
structure Frame (before m : Memory R) : Prop where
  running : m.exited = false
  rowstr : ∀ j, p.n < j → m.rowstr j = before.rowstr j
  a : ∀ k, ¬ (0 ≤ k ∧ k < p.finalStart p.n) → m.a k = before.a k
  colidx : ∀ k, ¬ (0 ≤ k ∧ k < p.finalStart p.n) → m.colidx k = before.colidx k

def Generated (m : Memory R) : Prop := ∀ i < p.n, m.triples i = p.row i

/-- `last_n` holds what the rows of every ULT add up to. -/
def BlockSums (K : ℕ → ℤ) (m : Memory R) : Prop :=
  ∀ t < numThreads, ilow p numThreads t < ihigh p numThreads t →
    m.lastN t = K (ihigh p numThreads t) - K (ilow p numThreads t)

/-- The workspace holds the final rows. -/
def RowValues (m : Memory R) : Prop :=
  ∀ j < p.n, ∀ k, p.rowStart j ≤ k → k < p.rowStart (j + 1) →
    m.v k = (p.finalRow j).v k ∧ m.iv k = (p.finalRow j).iv k

def TotalDuplicates (m : Memory R) : Prop :=
  ∀ j < p.n, m.nzloc j = p.duplicatesBefore (j + 1)

/-- What all ULTs rely on in a round. -/
def Common : ℕ → Memory R → Prop
  | 0, _ => True
  | 1, m => Generated p m
  | 2, m => Generated p m ∧ BlockSums p numThreads p.rowStart m ∧ m.rowstr 0 = 0
  | 3, m => Generated p m ∧ Pointers p m
  | 4, m => Pointers p m ∧ RowValues p m
  | 5, m => Pointers p m ∧ RowValues p m ∧ BlockSums p numThreads p.duplicatesBefore m
  | _, m => RowValues p m ∧ TotalDuplicates p m ∧ m.rowstr 0 = 0

/-- The rows of a ULT are in their final place. -/
def Copied (t : ℕ) (m : Memory R) : Prop :=
  ∀ j, InCopy p numThreads t j → ∀ k, p.finalStart j ≤ k → k < p.finalStart (j + 1) →
    m.a k = (p.finalRow j).v (p.copiedFrom j k) ∧
      m.colidx k = (p.finalRow j).iv (p.copiedFrom j k)

/-- The values a ULT has counted from its first row on. -/
def FromFirstRow (t : ℕ) (K : ℕ → ℤ) (f : ℕ → ℤ) : Prop :=
  ∀ j, InBlock p numThreads t j → f j = K (j + 1) - K (ilow p numThreads t)

/-- The sum over the ULTs before, wherever it is used. -/
def Offset (t : ℕ) (K : ℕ → ℤ) (m : Memory R) : Prop :=
  ilow p numThreads t < ihigh p numThreads t ∨ t = 0 → m.nzrow t = K (ilow p numThreads t)

/-- What a ULT knows of its own rows before a loop nest of a round, or at the end
of the round. -/
def Own (t : ℕ) : ℕ → Option Nest → Memory R → Prop
  | 0, none, m => ∀ i, InBlock p numThreads t i → m.triples i = p.row i
  | 1, some .countTriples, m => ∀ j, InBlock p numThreads t j → m.rowstr (j + 1) = 0
  | 1, some .sumCounts, m => ∀ j, InBlock p numThreads t j →
      m.rowstr (j + 1) = (p.rowElements j).length
  | 1, none, m => FromFirstRow p numThreads t p.rowStart (fun j => m.rowstr (j + 1)) ∧
      (ilow p numThreads t < ihigh p numThreads t →
        m.lastN t = p.rowStart (ihigh p numThreads t) - p.rowStart (ilow p numThreads t)) ∧
      (t = 0 → m.rowstr 0 = 0)
  | 2, some .sumLast, m => FromFirstRow p numThreads t p.rowStart (fun j => m.rowstr (j + 1))
  | 2, some .offsetRows, m =>
      FromFirstRow p numThreads t p.rowStart (fun j => m.rowstr (j + 1)) ∧
        Offset p numThreads t p.rowStart m
  | 2, none, m => ∀ j, InBlock p numThreads t j → m.rowstr (j + 1) = p.rowStart (j + 1)
  | 3, some .fillRows, m => ∀ j, InBlock p numThreads t j → p.SameRowOf j m.toWork fresh
  | 3, none, m => ∀ j, InBlock p numThreads t j → p.SameRowOf j m.toWork (p.finalRow j)
  | 4, some .sumDuplicates, m => ∀ j, InBlock p numThreads t j → m.nzloc j = p.duplicates j
  | 4, none, m => FromFirstRow p numThreads t p.duplicatesBefore m.nzloc ∧
      (ilow p numThreads t < ihigh p numThreads t →
        m.lastN t = p.duplicatesBefore (ihigh p numThreads t) -
          p.duplicatesBefore (ilow p numThreads t))
  | 5, some .sumLast, m => FromFirstRow p numThreads t p.duplicatesBefore m.nzloc
  | 5, some .offsetDuplicates, m => FromFirstRow p numThreads t p.duplicatesBefore m.nzloc ∧
      Offset p numThreads t p.duplicatesBefore m
  | 5, none, m => ∀ j, InBlock p numThreads t j → m.nzloc j = p.duplicatesBefore (j + 1)
  | 6, some .copy, m => ∀ j, InCopy p numThreads t j →
      m.rowstr j = p.rowStart j ∧ m.rowstr (j + 1) = p.rowStart (j + 1)
  | 6, some .shift, m => (∀ j, InCopy p numThreads t j →
      m.rowstr (j + 1) = p.rowStart (j + 1)) ∧ Copied p numThreads t m
  | 6, none, m => (∀ j, InCopy p numThreads t j →
      m.rowstr (j + 1) = p.finalStart (j + 1)) ∧ Copied p numThreads t m
  | _, _, _ => True

/-- The memory of another ULT's rows before the last round. -/
structure Kept (t : ℕ) (m m' : Memory R) : Prop where
  triples : ∀ i, InBlock p numThreads t i → m'.triples i = m.triples i
  rowstr : ∀ j, InBlock p numThreads t j → m'.rowstr (j + 1) = m.rowstr (j + 1)
  first : t = 0 → m'.rowstr 0 = m.rowstr 0
  lastN : m'.lastN t = m.lastN t
  nzrow : m'.nzrow t = m.nzrow t
  rows : ∀ j, InBlock p numThreads t j → p.SameRowOf j m'.toWork m.toWork

variable {p numThreads}

theorem Kept.own {t round : ℕ} {m m' : Memory R} (kept : Kept p numThreads t m m')
    (early : round < 6) {point : Option Nest} (own : Own p numThreads t round point m) :
    Own p numThreads t round point m' := by
  have nzloc : ∀ j, InBlock p numThreads t j → m'.nzloc j = m.nzloc j := fun j mine =>
    (kept.rows j mine).nzloc
  have offset : ∀ K, Offset p numThreads t K m → Offset p numThreads t K m' := fun K holds some =>
    kept.nzrow.trans (holds some)
  have pointers : ∀ K, FromFirstRow p numThreads t K (fun j => m.rowstr (j + 1)) →
      FromFirstRow p numThreads t K (fun j => m'.rowstr (j + 1)) := fun K holds j mine =>
    (kept.rowstr j mine).trans (holds j mine)
  have duplicates : ∀ K, FromFirstRow p numThreads t K m.nzloc →
      FromFirstRow p numThreads t K m'.nzloc := fun K holds j mine =>
    (nzloc j mine).trans (holds j mine)
  revert own
  unfold Own
  split <;> intro own
  · exact fun i mine => (kept.triples i mine).trans (own i mine)
  · exact fun j mine => (kept.rowstr j mine).trans (own j mine)
  · exact fun j mine => (kept.rowstr j mine).trans (own j mine)
  · exact ⟨pointers _ own.1, fun some => kept.lastN.trans (own.2.1 some),
      fun zero => (kept.first zero).trans (own.2.2 zero)⟩
  · exact pointers _ own
  · exact ⟨pointers _ own.1, offset _ own.2⟩
  · exact fun j mine => (kept.rowstr j mine).trans (own j mine)
  · exact fun j mine => (kept.rows j mine).trans (own j mine)
  · exact fun j mine => (kept.rows j mine).trans (own j mine)
  · exact fun j mine => (nzloc j mine).trans (own j mine)
  · exact ⟨duplicates _ own.1, fun some => kept.lastN.trans (own.2 some)⟩
  · exact duplicates _ own
  · exact ⟨duplicates _ own.1, offset _ own.2⟩
  · exact fun j mine => (nzloc j mine).trans (own j mine)
  all_goals omega

end Assertions

/-! ## The loop nests of the first rounds -/

section Nests

variable {p : Problem R} {numThreads : ℕ} {before m : Memory R} {t : ℕ}

theorem sumLast_offset {K : ℕ → ℤ} (zero : K 0 = 0) (within : t < numThreads)
    (sums : BlockSums p numThreads K m) : Offset p numThreads t K (sumLast t m) := fun some =>
  sumLast_own p zero (fun i earlier nonempty => sums i (earlier.trans within) nonempty) some

variable [One R] [Add R] [Sub R] [Mul R]

/-- The sum over `last_n`, in the round of the counts or in that of the duplicates. -/
theorem sumLast_kept (u : ℕ) (different : u ≠ t) : Kept p numThreads u m (sumLast t m) :=
  ⟨fun _ _ => rfl, fun _ _ => rfl, fun _ => rfl, rfl, Function.update_of_ne different _ _,
    fun _ _ => .refl ..⟩

variable [Zero R]

/-- A loop nest takes its ULT to its next facts and keeps what all the others
rely on. -/
structure Advances (p : Problem R) (numThreads : ℕ) (before : Memory R) (t round : ℕ)
    (next : Option Nest) (m m' : Memory R) : Prop where
  frame : Frame p before m'
  common : Common p numThreads round m'
  own : Own p numThreads t round next m'
  others : ∀ u, u ≠ t → Kept p numThreads u m m'

theorem generate_advances (positive : 0 < numThreads) (enough : numThreads ≤ p.maxThreads)
    (frame : Frame p before m) :
    Advances p numThreads before t 0 none m (generate p numThreads t m) := by
  obtain ⟨only, others⟩ := generate_other p enough t m
  have own : ∀ i, InBlock p numThreads t i →
      (generate p numThreads t m).triples i = p.row i := fun i mine => generate_own p enough mine
  rw [only]
  exact ⟨⟨frame.running, frame.rowstr, frame.a, frame.colidx⟩, trivial, own,
    fun u different => ⟨fun i theirs => others i (not_inBlock p positive different theirs),
      fun _ _ => rfl, fun _ => rfl, rfl, rfl, fun _ _ => .refl ..⟩⟩

/-- A loop nest that changes the row pointers behind the rows of its ULT only. -/
theorem advances_of_rowstr (positive : 0 < numThreads) {round : ℕ} {next : Option Nest}
    {m' : Memory R} (only : m' = { m with rowstr := m'.rowstr })
    (others : ∀ k, ¬ (ilow p numThreads t < k ∧ k ≤ ihigh p numThreads t) →
      m'.rowstr k = m.rowstr k)
    (frame : Frame p before m) (common : Common p numThreads round m')
    (own : Own p numThreads t round next m') :
    Advances p numThreads before t round next m m' := by
  have high := ihigh_le p numThreads t
  refine ⟨⟨?_, fun j beyond => ?_, fun k outside => ?_, fun k outside => ?_⟩, common, own,
    fun u different => ⟨fun i _ => ?_, fun j theirs => ?_, fun _ => ?_, ?_, ?_, fun j _ => ?_⟩⟩
  · rw [only]; exact frame.running
  · rw [others j (by omega)]; exact frame.rowstr j beyond
  · rw [only]; exact frame.a k outside
  · rw [only]; exact frame.colidx k outside
  · rw [only]
  · exact others _ (not_boundary p positive different theirs)
  · exact others 0 (by omega)
  · rw [only]
  · rw [only]
  · rw [only]; exact .refl ..

theorem clearCounts_advances (positive : 0 < numThreads) (frame : Frame p before m)
    (common : Common p numThreads 1 m) :
    Advances p numThreads before t 1 (some .countTriples) m (clearCounts p numThreads t m) :=
  advances_of_rowstr positive rfl (fun _ theirs => clearCounts_other p theirs) frame common
    fun _ mine => clearCounts_own p mine

theorem countTriples_advances (positive : 0 < numThreads) (frame : Frame p before m)
    (common : Common p numThreads 1 m)
    (own : Own p numThreads t 1 (some .countTriples) m) :
    Advances p numThreads before t 1 (some .sumCounts) m (countTriples p numThreads t m) :=
  advances_of_rowstr positive rfl (fun _ theirs => countTriples_other p theirs) frame common
    fun j mine => countTriples_own p common mine (own j mine)

theorem sumCounts_advances (positive : 0 < numThreads) (frame : Frame p before m)
    (common : Common p numThreads 1 m) (own : Own p numThreads t 1 (some .sumCounts) m) :
    Advances p numThreads before t 1 none m (sumCounts p numThreads t m) := by
  have high := ihigh_le p numThreads t
  refine ⟨⟨frame.running, fun j beyond => ?_, frame.a, frame.colidx⟩, common,
    ⟨fun j mine => ?_, fun some => ?_, fun zero => ?_⟩, fun u different =>
      ⟨fun _ _ => rfl, fun j theirs => ?_, fun zero => ?_, ?_, rfl, fun _ _ => .refl ..⟩⟩
  · rw [sumCounts_other p (by omega) (by omega)]
    exact frame.rowstr j beyond
  · exact sumCounts_rowstr p own (.inl (mine.1.trans_lt mine.2)) (firstBoundary_le p j mine)
      mine.2
  · refine (Function.update_self ..).trans (sumCounts_rowstr p own (.inl some) ?_ le_rfl)
    unfold firstBoundary
    split_ifs <;> omega
  · subst zero
    rw [sumCounts_rowstr p own (.inr rfl) (by simp [firstBoundary]) (Nat.zero_le _), ilow_zero,
      sub_self]
  · exact sumCounts_other p (not_boundary p positive different theirs) fun _ => Nat.succ_ne_zero j
  · exact sumCounts_other p (by omega) fun first => absurd (zero.trans first.symm) different
  · exact Function.update_of_ne different _ _

theorem sumLast_advances_rows (within : t < numThreads) (frame : Frame p before m)
    (common : Common p numThreads 2 m) (own : Own p numThreads t 2 (some .sumLast) m) :
    Advances p numThreads before t 2 (some .offsetRows) m (sumLast t m) :=
  ⟨⟨frame.running, frame.rowstr, frame.a, frame.colidx⟩, common,
    ⟨own, sumLast_offset p.rowStart_zero within common.2.1⟩, sumLast_kept⟩

theorem offsetRows_advances (positive : 0 < numThreads) (frame : Frame p before m)
    (common : Common p numThreads 2 m) (own : Own p numThreads t 2 (some .offsetRows) m) :
    Advances p numThreads before t 2 none m (offsetRows p numThreads t m) := by
  obtain ⟨only, others⟩ := offsetRows_other p own.2
  refine advances_of_rowstr positive only others frame ⟨?_, ?_, ?_⟩ fun j mine => ?_
  · rw [only]; exact common.1
  · rw [only]; exact common.2.1
  · rw [others 0 (by omega)]; exact common.2.2
  · have counted : m.rowstr (j + 1) = _ := own.1 j mine
    rw [offsetRows_own p own.2 mine, counted]
    omega

/-- A loop nest that changes the workspace in the rows of its ULT only. -/
theorem advances_of_work (positive : 0 < numThreads) {round : ℕ} {next : Option Nest}
    {w : Work R}
    (others : ∀ j, ¬ InBlock p numThreads t j → p.SameRowOf j w m.toWork)
    (frame : Frame p before m) (common : Common p numThreads round { m with toWork := w })
    (own : Own p numThreads t round next { m with toWork := w }) :
    Advances p numThreads before t round next m { m with toWork := w } :=
  ⟨⟨frame.running, frame.rowstr, frame.a, frame.colidx⟩, common, own, fun _ different =>
    ⟨fun _ _ => rfl, fun _ _ => rfl, fun _ => rfl, rfl, rfl,
      fun j theirs => others j (not_inBlock p positive different theirs)⟩⟩

theorem preload_advances (positive : 0 < numThreads) (frame : Frame p before m)
    (common : Common p numThreads 3 m) :
    Advances p numThreads before t 3 (some .fillRows) m (preload p numThreads t m) := by
  obtain ⟨w, stored, own, others⟩ := preload_spec p common.2 t
  rw [stored]
  exact advances_of_work positive others frame common own

theorem fillRows_advances (positive : 0 < numThreads) (frame : Frame p before m)
    (common : Common p numThreads 3 m) (own : Own p numThreads t 3 (some .fillRows) m) :
    Advances p numThreads before t 3 none m (fillRows p numThreads t m) := by
  obtain ⟨w, stored, final, others⟩ := fillRows_spec p common.1 common.2 own
  rw [stored]
  exact advances_of_work positive others frame common final

theorem sumDuplicates_advances (positive : 0 < numThreads) (frame : Frame p before m)
    (common : Common p numThreads 4 m) (own : Own p numThreads t 4 (some .sumDuplicates) m) :
    Advances p numThreads before t 4 none m (sumDuplicates p numThreads t m) :=
  ⟨⟨frame.running, frame.rowstr, frame.a, frame.colidx⟩, common,
    ⟨fun _ mine => sumDuplicates_nzloc p own mine, fun some => sumDuplicates_lastN p own some⟩,
    fun _ different => ⟨fun _ _ => rfl, fun _ _ => rfl, fun _ => rfl,
      Function.update_of_ne different _ _, rfl, fun _ theirs => ⟨fun _ _ _ => rfl,
        fun _ _ _ => rfl, sumDuplicates_other p (not_inBlock p positive different theirs)⟩⟩⟩

theorem sumLast_advances_duplicates (within : t < numThreads) (frame : Frame p before m)
    (common : Common p numThreads 5 m) (own : Own p numThreads t 5 (some .sumLast) m) :
    Advances p numThreads before t 5 (some .offsetDuplicates) m (sumLast t m) :=
  ⟨⟨frame.running, frame.rowstr, frame.a, frame.colidx⟩, common,
    ⟨own, sumLast_offset p.duplicatesBefore_zero within common.2.2⟩, sumLast_kept⟩

theorem offsetDuplicates_advances (positive : 0 < numThreads) (frame : Frame p before m)
    (common : Common p numThreads 5 m) (own : Own p numThreads t 5 (some .offsetDuplicates) m) :
    Advances p numThreads before t 5 none m (offsetDuplicates p numThreads t m) := by
  obtain ⟨only, others⟩ := offsetDuplicates_other p numThreads t m
  have final : ∀ j, InBlock p numThreads t j →
      (offsetDuplicates p numThreads t m).nzloc j = p.duplicatesBefore (j + 1) := by
    intro j mine
    rw [offsetDuplicates_own p own.2 mine, own.1 j mine]
    omega
  rw [only]
  exact ⟨⟨frame.running, frame.rowstr, frame.a, frame.colidx⟩, common, final,
    fun _ different => ⟨fun _ _ => rfl, fun _ _ => rfl, fun _ => rfl, rfl, rfl,
      fun j theirs => ⟨fun _ _ _ => rfl, fun _ _ _ => rfl,
        others j (not_inBlock p positive different theirs)⟩⟩⟩

end Nests

/-! ## The last round -/

section LastRound

variable [Zero R] [One R] [Add R] [Sub R] [Mul R] {p : Problem R} {numThreads : ℕ}
  {before m : Memory R} {t : ℕ}

/-- Facts of the last round, fact by fact. -/
theorem Own.last {u : ℕ} {m' : Memory R} {point : Option Nest}
    (copying : point = some .copy → Own p numThreads u 6 (some .copy) m →
      Own p numThreads u 6 (some .copy) m')
    (shifting : Own p numThreads u 6 (some .shift) m → Own p numThreads u 6 (some .shift) m')
    (ended : Own p numThreads u 6 none m → Own p numThreads u 6 none m')
    (own : Own p numThreads u 6 point m) : Own p numThreads u 6 point m' := by
  cases point with
  | none => exact ended own
  | some nest =>
      cases nest with
      | copy => exact copying rfl own
      | shift => exact shifting own
      | _ => exact trivial

theorem copyReady (common : Common p numThreads 6 m) (own : Own p numThreads t 6 (some .copy) m) :
    CopyReady p numThreads t m :=
  ⟨fun j mine => (own j mine).1, fun j mine => (own j mine).2, common.2.1⟩

theorem copy_common (within : t < numThreads) (common : Common p numThreads 6 m)
    (own : Own p numThreads t 6 (some .copy) m) :
    Common p numThreads 6 (copy p numThreads t m) := by
  rw [(copy_other p within (copyReady common own)).1]
  exact common

theorem copy_frame (within : t < numThreads) (frame : Frame p before m)
    (common : Common p numThreads 6 m) (own : Own p numThreads t 6 (some .copy) m) :
    Frame p before (copy p numThreads t m) := by
  obtain ⟨only, others⟩ := copy_other p within (copyReady common own)
  have outside : ∀ k, ¬ (0 ≤ k ∧ k < p.finalStart p.n) → ∀ j, InCopy p numThreads t j →
      ¬ (p.finalStart j ≤ k ∧ k < p.finalStart (j + 1)) := by
    intro k beyond j mine inside
    have low := p.finalStart_mono (Nat.zero_le j)
    have high := p.finalStart_mono (mine.2.trans_le (jStop_le p within))
    simp only [p.finalStart_zero, Nat.succ_eq_add_one] at low high
    exact beyond ⟨by omega, by omega⟩
  refine ⟨?_, ?_, fun k beyond => ?_, fun k beyond => ?_⟩
  · rw [only]; exact frame.running
  · rw [only]; exact frame.rowstr
  · rw [(others k (outside k beyond)).1]; exact frame.a k beyond
  · rw [(others k (outside k beyond)).2]; exact frame.colidx k beyond

theorem copy_own_next (within : t < numThreads) (common : Common p numThreads 6 m)
    (own : Own p numThreads t 6 (some .copy) m) :
    Own p numThreads t 6 (some .shift) (copy p numThreads t m) := by
  have ready := copyReady common own
  refine ⟨fun j mine => ?_, fun j mine k lower upper => ?_⟩
  · rw [(copy_other p within ready).1]
    exact (own j mine).2
  · have few := jStop_le p within
    have some := p.duplicates_nonneg j
    have source : p.rowStart j ≤ p.copiedFrom j k ∧ p.copiedFrom j k < p.rowStart (j + 1) := by
      rw [Problem.finalStart] at lower upper
      rw [p.duplicatesBefore_succ] at upper
      rw [Problem.copiedFrom, Problem.finalStart]
      omega
    obtain ⟨value, column⟩ := copy_own p within ready mine lower upper
    obtain ⟨v, iv⟩ := common.1 j (by omega) _ source.1 source.2
    exact ⟨value.trans v, column.trans iv⟩

theorem copy_others (within : t < numThreads) (common : Common p numThreads 6 m)
    (own : Own p numThreads t 6 (some .copy) m) {u : ℕ} (alive : u < numThreads)
    (different : u ≠ t) {point : Option Nest} (theirs : Own p numThreads u 6 point m) :
    Own p numThreads u 6 point (copy p numThreads t m) := by
  obtain ⟨only, others⟩ := copy_other p within (copyReady common own)
  have rowstr : (copy p numThreads t m).rowstr = m.rowstr := by rw [only]
  have copied : Copied p numThreads u m → Copied p numThreads u (copy p numThreads t m) := by
    intro done j mine k lower upper
    have kept := others k fun i other inside => different <|
      copyThread_unique p alive within mine
        (p.finalStart_unique inside ⟨lower, upper⟩ ▸ other)
    rw [kept.1, kept.2]
    exact done j mine k lower upper
  refine Own.last (fun _ facts j mine => ?_) (fun facts => ⟨fun j mine => ?_, copied facts.2⟩)
    (fun facts => ⟨fun j mine => ?_, copied facts.2⟩) theirs
  · rw [rowstr]; exact facts j mine
  · rw [rowstr]; exact facts.1 j mine
  · rw [rowstr]; exact facts.1 j mine

theorem shift_frame (within : t < numThreads) (frame : Frame p before m) :
    Frame p before (shift p numThreads t m) := by
  refine ⟨frame.running, fun j beyond => ?_, frame.a, frame.colidx⟩
  have few := jStop_le p within
  rw [shift_other p fun i mine => by omega]
  exact frame.rowstr j beyond

theorem shift_common (common : Common p numThreads 6 m) :
    Common p numThreads 6 (shift p numThreads t m) := by
  refine ⟨common.1, common.2.1, ?_⟩
  rw [shift_other p fun i _ => (Nat.succ_ne_zero i).symm]
  exact common.2.2

theorem shift_own_end (within : t < numThreads) (common : Common p numThreads 6 m)
    (own : Own p numThreads t 6 (some .shift) m) :
    Own p numThreads t 6 none (shift p numThreads t m) := by
  refine ⟨fun j mine => ?_, own.2⟩
  have few := jStop_le p within
  rw [shift_own p mine, own.1 j mine, common.2.1 j (by omega), Problem.finalStart]

/-- Rows without a repeated column have no duplicates. -/
theorem duplicatesBefore_eq_zero {j : ℕ}
    (distinct : ∀ i < j, ((p.rowElements i).map Element.col).Nodup) : p.duplicatesBefore j = 0 :=
  Finset.sum_eq_zero fun i member => p.duplicates_eq_zero (distinct i (Finset.mem_range.mp member))

/-- The shift loop keeps the facts of the other ULTs, unless the next one has still
to copy and there are duplicates before the border. -/
theorem shift_others (within : t < numThreads) (common : Common p numThreads 6 m) {u : ℕ}
    (alive : u < numThreads) (different : u ≠ t) {point : Option Nest}
    (calm : point = some .copy → u = t + 1 →
      ∀ j < jStop p numThreads t, ((p.rowElements j).map Element.col).Nodup)
    (theirs : Own p numThreads u 6 point m) :
    Own p numThreads u 6 point (shift p numThreads t m) := by
  have behind : ∀ j, InCopy p numThreads u j →
      (shift p numThreads t m).rowstr (j + 1) = m.rowstr (j + 1) := fun j mine =>
    shift_other p fun i other same => different <|
      copyThread_unique p alive within mine (Nat.succ_injective same ▸ other)
  refine Own.last (m := m) (fun copying facts j mine => ⟨?_, ?_⟩)
    (fun facts => ⟨fun j mine => ?_, facts.2⟩)
    (fun facts => ⟨fun j mine => ?_, facts.2⟩) theirs
  · by_cases moved : ∃ i, InCopy p numThreads t i ∧ j = i + 1
    · -- the pointer on the border moves by the duplicates before it, and there are none
      obtain ⟨i, other, rfl⟩ := moved
      obtain ⟨next, onBorder⟩ := border p within alive different other mine
      have few := jStop_le p within
      rw [shift_own p other, (facts _ mine).1, common.2.1 i (by omega), onBorder,
        duplicatesBefore_eq_zero (calm copying next), sub_zero]
    · rw [shift_other p fun i other same => moved ⟨i, other, same⟩]
      exact (facts j mine).1
  · rw [behind j mine]; exact (facts j mine).2
  · rw [behind j mine]; exact facts.1 j mine
  · rw [behind j mine]; exact facts.1 j mine

end LastRound

end ArgobotsReduction.ConjugateGradient.Sparse
