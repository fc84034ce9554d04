import Mathlib.Tactic.IntervalCases
import ArgobotsReduction.Parallel.Outline
import ArgobotsReduction.ConjugateGradient.AssemblyFacts

/-!
# The assembly does not depend on the schedule

The facts of the ULTs are a proof outline of `makea` and `sparse` (`outline`),
under the policy `shiftAfterCopy`.  The policy orders the two loops after the last
barrier, which share row pointers and have no barrier between them.

Under it every run ends with the matrix that the generated rows describe
(`ensures_isAssembled`), whatever the number of ULTs, and so does the run of one
ULT alone (`assembled_eq_sequential`).  Without it two ULTs may leave an empty
position in the matrix (`not_assembled_eq_sequential`).
-/

set_option autoImplicit false

namespace ArgobotsReduction.ConjugateGradient.Sparse

open Containers Parallel

variable {R : Type}

/-! ## The code, round by round -/

section Rounds

variable {numThreads : ℕ}

/-- The loop nests of every round. -/
def roundNests : ℕ → List Nest
  | 0 => [.generate]
  | 1 => [.clearCounts, .countTriples, .sumCounts]
  | 2 => [.sumLast, .offsetRows]
  | 3 => [.preload, .fillRows]
  | 4 => [.sumDuplicates]
  | 5 => [.sumLast, .offsetDuplicates]
  | 6 => [.copy, .shift]
  | _ => []

theorem makea_waits (t : Fin numThreads) : (makea numThreads t).waits = 6 := rfl

theorem makea_disciplined (t : Fin numThreads) : Code.Disciplined false (makea numThreads t) :=
  trivial

theorem makea_actions (t : Fin numThreads) (round : ℕ) :
    (makea numThreads t).actions round = (roundNests round).map (Action.mk t) := by
  rcases Nat.lt_or_ge 6 round with past | within
  · obtain ⟨k, rfl⟩ : ∃ k, round = k + 7 := ⟨round - 7, by omega⟩
    exact Code.actions_eq_nil past
  · interval_cases round <;> rfl

/-- A loop nest of a round and what comes after it in the round. -/
inductive Turn : ℕ → Nest → Option Nest → Prop where
  | generate : Turn 0 .generate none
  | clearCounts : Turn 1 .clearCounts (some .countTriples)
  | countTriples : Turn 1 .countTriples (some .sumCounts)
  | sumCounts : Turn 1 .sumCounts none
  | sumLastRows : Turn 2 .sumLast (some .offsetRows)
  | offsetRows : Turn 2 .offsetRows none
  | preload : Turn 3 .preload (some .fillRows)
  | fillRows : Turn 3 .fillRows none
  | sumDuplicates : Turn 4 .sumDuplicates none
  | sumLastDuplicates : Turn 5 .sumLast (some .offsetDuplicates)
  | offsetDuplicates : Turn 5 .offsetDuplicates none
  | copy : Turn 6 .copy (some .shift)
  | shift : Turn 6 .shift none

theorem Turn.of_generate {round : ℕ} {next : Option Nest} (turn : Turn round .generate next) :
    round = 0 := by
  cases turn
  rfl

theorem Turn.of_shift {round : ℕ} {next : Option Nest} (turn : Turn round .shift next) :
    round = 6 ∧ next = none := by
  cases turn
  exact ⟨rfl, rfl⟩

/-- The next loop nest of a list of actions. -/
def nextNest (rest : List (Action numThreads)) : Option Nest := rest.head?.map Action.nest

theorem turn_of_suffix {t : Fin numThreads} {round : ℕ} {action : Action numThreads}
    {rest : List (Action numThreads)}
    (suffix : action :: rest <:+ (makea numThreads t).actions round) :
    action.thread = t ∧ Turn round action.nest (nextNest rest) := by
  rw [makea_actions] at suffix
  unfold roundNests at suffix
  split at suffix <;>
    simp only [List.map_cons, List.map_nil, List.suffix_cons_iff, List.suffix_nil,
      List.cons.injEq, reduceCtorEq, or_false] at suffix
  · obtain ⟨rfl, rfl⟩ := suffix
    exact ⟨rfl, .generate⟩
  · obtain ⟨rfl, rfl⟩ | ⟨rfl, rfl⟩ | ⟨rfl, rfl⟩ := suffix
    exacts [⟨rfl, .clearCounts⟩, ⟨rfl, .countTriples⟩, ⟨rfl, .sumCounts⟩]
  · obtain ⟨rfl, rfl⟩ | ⟨rfl, rfl⟩ := suffix
    exacts [⟨rfl, .sumLastRows⟩, ⟨rfl, .offsetRows⟩]
  · obtain ⟨rfl, rfl⟩ | ⟨rfl, rfl⟩ := suffix
    exacts [⟨rfl, .preload⟩, ⟨rfl, .fillRows⟩]
  · obtain ⟨rfl, rfl⟩ := suffix
    exact ⟨rfl, .sumDuplicates⟩
  · obtain ⟨rfl, rfl⟩ | ⟨rfl, rfl⟩ := suffix
    exacts [⟨rfl, .sumLastDuplicates⟩, ⟨rfl, .offsetDuplicates⟩]
  · obtain ⟨rfl, rfl⟩ | ⟨rfl, rfl⟩ := suffix
    exacts [⟨rfl, .copy⟩, ⟨rfl, .shift⟩]

end Rounds

section Outline

variable [Zero R] [One R] [Add R] [Sub R] [Mul R] (p : Problem R) {numThreads : ℕ}
  (before : Memory R)

/-- The outline: the shared facts and those of the ULT. -/
def Holds (t : Fin numThreads) (round : ℕ) (rest : List (Action numThreads)) (m : Memory R) :
    Prop :=
  Frame p before m ∧ Common p numThreads round m ∧ Own p numThreads t round (nextNest rest) m

/-- **The order that matters.**  A ULT runs its shift loop only when the next ULT
has run its copy loop, or no column occurs twice in a row before the border of the
two. -/
def shiftAfterCopy : Policy (Fin numThreads) (Action numThreads) (Memory R) := fun c t =>
  c.remaining t 6 = [⟨t, .shift⟩] → ∀ u : Fin numThreads, (u : ℕ) = t + 1 →
    ⟨u, .copy⟩ ∈ c.remaining u 6 →
      ∀ j < jStop p numThreads t, ((p.rowElements j).map Element.col).Nodup

variable {p before}

/-- What a loop nest of any round does to the facts of its ULT and of the others. -/
structure TurnHolds (p : Problem R) (before : Memory R) (t : Fin numThreads) (round : ℕ)
    (nest : Nest) (next : Option Nest) (m m' : Memory R) : Prop where
  frame : Frame p before m'
  common : Common p numThreads round m'
  own : Own p numThreads t round next m'
  others : ∀ u : Fin numThreads, u ≠ t → ∀ point,
    (nest = .shift → point = some .copy → (u : ℕ) = t + 1 →
      ∀ j < jStop p numThreads t, ((p.rowElements j).map Element.col).Nodup) →
    Own p numThreads u round point m → Own p numThreads u round point m'

theorem Advances.turnHolds {t : Fin numThreads} {round : ℕ} {next : Option Nest} {m m' : Memory R}
    (advances : Advances p numThreads before t round next m m') (early : round < 6) (nest : Nest) :
    TurnHolds p before t round nest next m m' :=
  ⟨advances.frame, advances.common, advances.own, fun u different _ _ theirs =>
    (advances.others u (Fin.val_ne_of_ne different)).own early theirs⟩

theorem turn_holds {t : Fin numThreads} {round : ℕ} {nest : Nest} {next : Option Nest}
    (enough : nest = .generate → numThreads ≤ p.maxThreads) (turn : Turn round nest next)
    {m : Memory R}
    (frame : Frame p before m) (common : Common p numThreads round m)
    (own : Own p numThreads t round (some nest) m) :
    TurnHolds p before t round nest next m (nest.run p numThreads t m) := by
  have positive : 0 < numThreads := t.pos
  cases turn with
  | generate => exact (generate_advances positive (enough rfl) frame).turnHolds (by omega) _
  | clearCounts => exact (clearCounts_advances positive frame common).turnHolds (by omega) _
  | countTriples => exact (countTriples_advances positive frame common own).turnHolds (by omega) _
  | sumCounts => exact (sumCounts_advances positive frame common own).turnHolds (by omega) _
  | sumLastRows => exact (sumLast_advances_rows t.isLt frame common own).turnHolds (by omega) _
  | offsetRows => exact (offsetRows_advances positive frame common own).turnHolds (by omega) _
  | preload => exact (preload_advances positive frame common).turnHolds (by omega) _
  | fillRows => exact (fillRows_advances positive frame common own).turnHolds (by omega) _
  | sumDuplicates => exact (sumDuplicates_advances positive frame common own).turnHolds (by omega) _
  | sumLastDuplicates =>
      exact (sumLast_advances_duplicates t.isLt frame common own).turnHolds (by omega) _
  | offsetDuplicates =>
      exact (offsetDuplicates_advances positive frame common own).turnHolds (by omega) _
  | copy =>
      exact ⟨copy_frame t.isLt frame common own, copy_common t.isLt common own,
        copy_own_next t.isLt common own, fun u different point _ theirs =>
          copy_others t.isLt common own u.isLt (Fin.val_ne_of_ne different) theirs⟩
  | shift =>
      exact ⟨shift_frame t.isLt frame, shift_common common, shift_own_end t.isLt common own,
        fun u different point calm theirs =>
          shift_others t.isLt common u.isLt (Fin.val_ne_of_ne different) (calm rfl) theirs⟩

/-- What the ULTs have done in a round is what all rely on in the next. -/
theorem next_holds {round : ℕ} (more : round < 6) {m : Memory R}
    (ended : ∀ t : Fin numThreads, Holds p before t round [] m) (t : Fin numThreads) :
    Holds p before t (round + 1) ((makea numThreads t).actions (round + 1)) m := by
  have positive : 0 < numThreads := t.pos
  obtain ⟨frame, common, -⟩ := ended t
  have own := fun t => (ended t).2.2
  have first := own ⟨0, positive⟩
  have everywhere : ∀ {P : ℕ → Prop}, (∀ t : Fin numThreads, ∀ j, InBlock p numThreads t j → P j) →
      ∀ j < p.n, P j := fun all j within => by
    obtain ⟨t, mine⟩ := exists_thread p positive within
    exact all t j mine
  refine ⟨frame, ?_⟩
  rw [makea_actions]
  interval_cases round
  · exact ⟨everywhere own, trivial⟩
  · exact ⟨⟨common, fun u below => (own ⟨u, below⟩).2.1, first.2.2 rfl⟩, (own t).1⟩
  · refine ⟨⟨common.1, fun j within => ?_⟩, trivial⟩
    cases j with
    | zero => exact common.2.2
    | succ j => exact everywhere own j within
  · exact ⟨⟨common.2, everywhere fun t j mine k lower upper =>
      ⟨(own t j mine).v k lower upper, (own t j mine).iv k lower upper⟩⟩,
      fun j mine => (own t j mine).nzloc⟩
  · exact ⟨⟨common.1, common.2, fun u below => (own ⟨u, below⟩).2⟩, (own t).1⟩
  · refine ⟨⟨common.2.1, everywhere own, common.1 0 (Nat.zero_le _)⟩, fun j mine => ?_⟩
    have few := jStop_le p t.isLt
    exact ⟨common.1 j (by omega), common.1 (j + 1) (by omega)⟩

/-- **The outline is correct.** -/
theorem outline (enough : numThreads ≤ p.maxThreads) (running : before.exited = false) :
    Outline (exec p) (shiftAfterCopy p) before (makea numThreads)
      (Holds p before) where
  start := fun t => ⟨⟨running, fun _ _ => rfl, fun _ _ => rfl, fun _ _ => rfl⟩, trivial, trivial⟩
  own := by
    rintro t round action rest m suffix ⟨frame, common, own⟩
    obtain ⟨mine, turn⟩ := turn_of_suffix suffix
    have holds := turn_holds (fun _ => enough) turn frame common own
    rw [exec, if_neg (by simp [frame.running]), mine]
    exact ⟨holds.frame, holds.common, holds.own⟩
  apart := by
    rintro c t u different action rest taken allowed suffix theirSuffix ⟨frame, common, own⟩
      ⟨-, -, theirs⟩
    obtain ⟨mine, turn⟩ := turn_of_suffix suffix
    have holds := turn_holds (fun _ => enough) turn frame common own
    rw [exec, if_neg (by simp [frame.running]), mine]
    refine ⟨holds.frame, holds.common,
      holds.others u different _ (fun shifting copying next => ?_) theirs⟩
    -- the policy speaks of this very step
    have last := (shifting ▸ turn : Turn (c.passed t) .shift (nextNest rest)).of_shift
    have alone : rest = [] := by
      simpa [nextNest] using last.2
    rw [last.1] at taken theirSuffix copying
    refine allowed ?_ u next ?_
    · rw [taken, alone, ← mine, ← shifting]
    · cases left : c.remaining u 6 with
      | nil => simp [left, nextNest] at copying
      | cons other more =>
          rw [left] at theirSuffix copying
          have theirs := (turn_of_suffix theirSuffix).1
          have copies : other.nest = .copy := by simpa [nextNest] using copying
          rw [← theirs, ← copies]
          exact List.mem_cons_self
  barrier := fun _ more _ ended t => next_holds (more t) ended t

/-! ## The result -/

/-- The policy never holds up all ULTs: the ULT another one waits for has not come
further than its copy loop. -/
theorem live (enough : numThreads ≤ p.maxThreads) (running : before.exited = false) :
    Policy.Live (exec p) (shiftAfterCopy p) before (makea numThreads) := by
  rintro c run ⟨t, enabled⟩
  by_cases allowed : shiftAfterCopy p c t
  · exact ⟨t, allowed, enabled⟩
  · simp only [shiftAfterCopy, not_forall] at allowed
    obtain ⟨shifting, u, -, copying, -⟩ := allowed
    refine ⟨u, fun alone => ?_, ?_⟩
    · rw [alone] at copying
      simp at copying
    · obtain ⟨round, stands⟩ := (outline enough running).steps run
      have reached : 6 ≤ round := by
        by_contra early
        rw [stands.untouched t 6 (by omega), makea_actions] at shifting
        cases shifting
      have invariant := (Invariant.start before (makea numThreads)).steps run
      have suffix := run.code_suffix u
      cases next : c.code u with
      | nil => simp [Config.remaining, next] at copying
      | cons instr rest =>
          rw [next] at suffix
          have member : instr ∈ makea numThreads u := suffix.subset List.mem_cons_self
          cases instr with
          | act action => exact ⟨_, .act next⟩
          | wait =>
              cases inside : c.waiting u with
              | false => exact ⟨_, .arrive next inside⟩
              | true =>
                  refine ⟨_, .leave next inside fun v => ?_⟩
                  have count := invariant.rounds u
                  have arrived := stands.arrived v
                  rw [next, Code.waits_wait, makea_waits] at count
                  omega
          | lock => simp [makea] at member
          | unlock => simp [makea] at member

/-- The matrix the generated rows describe, in the arrays as they were before. -/
structure IsAssembled (p : Problem R) (before : Memory R) (result : Assembled R) : Prop where
  rowstr : ∀ j ≤ p.n, result.rowstr j = p.finalStart j
  beyond : ∀ j, p.n < j → result.rowstr j = before.rowstr j
  inRow : ∀ j < p.n, ∀ k, p.finalStart j ≤ k → k < p.finalStart (j + 1) →
    result.a k = (p.finalRow j).v (p.copiedFrom j k) ∧
      result.colidx k = (p.finalRow j).iv (p.copiedFrom j k)
  outside : ∀ k, ¬ (0 ≤ k ∧ k < p.finalStart p.n) →
    result.a k = before.a k ∧ result.colidx k = before.colidx k

/-- Every position of the matrix lies in a row. -/
theorem Problem.exists_row {n : ℕ} {k : ℤ} (lower : 0 ≤ k) (upper : k < p.finalStart n) :
    ∃ j < n, p.finalStart j ≤ k ∧ k < p.finalStart (j + 1) := by
  induction n with
  | zero =>
      rw [p.finalStart_zero] at upper
      omega
  | succ n ih =>
      by_cases earlier : k < p.finalStart n
      · obtain ⟨j, below, inside⟩ := ih earlier
        exact ⟨j, by omega, inside⟩
      · exact ⟨n, Nat.lt_succ_self n, by omega, upper⟩

theorem IsAssembled.unique {first second : Assembled R} (isFirst : IsAssembled p before first)
    (isSecond : IsAssembled p before second) : first = second := by
  have arrays : ∀ k, first.a k = second.a k ∧ first.colidx k = second.colidx k := by
    intro k
    by_cases inside : 0 ≤ k ∧ k < p.finalStart p.n
    · obtain ⟨j, below, lower, upper⟩ := Problem.exists_row inside.1 inside.2
      have one := isFirst.inRow j below k lower upper
      have two := isSecond.inRow j below k lower upper
      exact ⟨one.1.trans two.1.symm, one.2.trans two.2.symm⟩
    · have one := isFirst.outside k inside
      have two := isSecond.outside k inside
      exact ⟨one.1.trans two.1.symm, one.2.trans two.2.symm⟩
  obtain ⟨a, colidx, rowstr⟩ := first
  obtain ⟨a', colidx', rowstr'⟩ := second
  congr 1
  · exact funext fun k => (arrays k).1
  · exact funext fun k => (arrays k).2
  · funext j
    rcases Nat.lt_or_ge p.n j with past | within
    · exact (isFirst.beyond j past).trans (isSecond.beyond j past).symm
    · exact (isFirst.rowstr j within).trans (isSecond.rowstr j within).symm

/-- At the end of the last round the matrix is assembled. -/
theorem isAssembled_of_holds (positive : 0 < numThreads) {m : Memory R}
    (ended : ∀ t : Fin numThreads, Holds p before t 6 [] m) :
    m.exited = false ∧ IsAssembled p before m.assembled := by
  obtain ⟨frame, common, -⟩ := ended ⟨0, positive⟩
  have own := fun t => (ended t).2.2
  refine ⟨frame.running, fun j within => ?_, frame.rowstr, fun j within k lower upper => ?_,
    fun k beyond => ⟨frame.a k beyond, frame.colidx k beyond⟩⟩
  · cases j with
    | zero => exact common.2.2
    | succ j =>
        obtain ⟨t, mine⟩ := exists_copyThread p positive (Nat.lt_of_succ_le within)
        exact (own t).1 j mine
  · obtain ⟨t, mine⟩ := exists_copyThread p positive within
    exact (own t).2 j mine k lower upper

/-- Every run in which the order of the two loops is kept assembles the matrix. -/
theorem ensures_isAssembled (positive : 0 < numThreads) (enough : numThreads ≤ p.maxThreads)
    (running : before.exited = false) :
    Ensures (exec p) (shiftAfterCopy p) before (makea numThreads) fun m =>
      m.exited = false ∧ IsAssembled p before m.assembled :=
  ((outline enough running).ensures makea_disciplined (fun _ _ => rfl) (live enough running)).imp
    fun _ ended => isAssembled_of_holds positive ended

end Outline

/-- A memory in which the process has just started. -/
def Memory.start (m : Memory R) : Memory R := { m with exited := false }

section Result

variable [One R] [Add R] [Sub R] [Mul R] (p : Problem R)

/-- One ULT alone is never held up. -/
theorem shiftAfterCopy_one : (shiftAfterCopy p : Policy (Fin 1) (Action 1) (Memory R)) = .free := by
  funext c t
  refine eq_true fun _ u next => ?_
  have := u.isLt
  omega

variable [Zero R]

/-- **The assembled matrix depends neither on the number of ULTs nor on the
schedule**, as long as no ULT runs its shift loop while the next one has still to
run its copy loop and some row before the border has a repeated column.  Every
such run ends, and leaves `a`, `colidx` and `rowstr` as one ULT alone leaves them. -/
theorem assembled_eq_sequential {numThreads : ℕ} (positive : 0 < numThreads)
    (enough : numThreads ≤ p.maxThreads) (m : Memory R) :
    ∃ result,
      Ensures (exec p) .free m.start (makea 1)
        (fun m => m.exited = false ∧ m.assembled = result) ∧
      Ensures (exec p) (shiftAfterCopy p) m.start (makea numThreads)
        (fun m => m.exited = false ∧ m.assembled = result) := by
  have alone : Ensures (exec p) (shiftAfterCopy p) m.start (makea 1) _ :=
    ensures_isAssembled one_pos (le_trans positive enough) rfl
  rw [shiftAfterCopy_one p] at alone
  obtain ⟨c, -, -, -, isResult⟩ := alone.exists_finished
  exact ⟨c.memory.assembled, alone.imp fun _ same => ⟨same.1, same.2.unique isResult⟩,
    (ensures_isAssembled positive enough rfl).imp fun _ same =>
      ⟨same.1, same.2.unique isResult⟩⟩

end Result

/-! ## The missing barrier -/

/-- Two generated rows with the columns 1, 0 and 0, 1. -/
def twoRows : Problem ℤ where
  n := 2
  nonzer := 1
  maxThreads := 2
  row i := if i = 0 then [(1, 3), (0, 1)] else if i = 1 then [(0, 5), (1, 1)] else []
  row_length i := by
    split_ifs <;> simp
  rcond := 1
  shift := 2
  ratio := 1

def blank : Memory ℤ where
  v _ := 0
  iv _ := 0
  nzloc _ := 0
  triples _ := []
  rowstr _ := 0
  lastN _ := 0
  a _ := 0
  colidx _ := 0
  nzrow _ := 0
  exited := false

theorem assembled_eq_sequential_twoRows :
    ∃ result,
      Ensures (exec twoRows) .free blank.start (makea 1)
        (fun m => m.exited = false ∧ m.assembled = result) ∧
      Ensures (exec twoRows) (shiftAfterCopy twoRows) blank.start (makea 2)
        (fun m => m.exited = false ∧ m.assembled = result) :=
  assembled_eq_sequential twoRows two_pos le_rfl blank

/-- Every round the ULTs move one after the other, in the last one too. -/
def inTurns (numThreads : ℕ) : List (Fin numThreads) :=
  [2, 5, 4, 4, 3, 4, 3].flatMap fun moves =>
    (List.finRange numThreads).flatMap fun t => List.replicate moves t

/-- A finished run that leaves the given column at position 0. -/
def FinishesWith {numThreads : ℕ} (column : ℤ)
    (c : Config (Fin numThreads) (Action numThreads) (Memory ℤ)) : Bool :=
  decide (∀ t, c.code t = []) && decide (c.memory.colidx 0 = column)

theorem finishesWith_of_play (numThreads : ℕ) (column : ℤ)
    (played : ((Config.start blank.start (makea numThreads)).play (exec twoRows)
      (inTurns numThreads)).any (FinishesWith column) = true) :
    ∃ c, Steps (exec twoRows) .free (Config.start blank.start (makea numThreads)) c ∧
      c.Finished ∧ c.memory.assembled.colidx 0 = column := by
  obtain ⟨c, reached, finishes⟩ := (Option.any_eq_true _ _).mp played
  simp only [FinishesWith, Bool.and_eq_true, decide_eq_true_eq] at finishes
  exact ⟨c, .of_play reached, finishes⟩

/-- With two ULTs and no order between their last loops, a run leaves an empty
position in the matrix. -/
theorem not_assembled_eq_sequential :
    ¬ ∀ (p : Problem ℤ) (numThreads : ℕ) (m : Memory ℤ), 0 < numThreads →
      numThreads ≤ p.maxThreads → ∀ c d,
        Steps (exec p) .free (Config.start m.start (makea numThreads)) c → c.Finished →
        Steps (exec p) .free (Config.start m.start (makea 1)) d → d.Finished →
          c.memory.assembled = d.memory.assembled := by
  intro independent
  obtain ⟨c, run, finished, column⟩ :=
    finishesWith_of_play 2 (-1) (by decide +kernel)
  obtain ⟨d, run', finished', column'⟩ :=
    finishesWith_of_play 1 0 (by decide +kernel)
  have same := independent twoRows 2 blank two_pos le_rfl c d run finished run' finished'
  rw [same, column'] at column
  exact absurd column (by decide)

end ArgobotsReduction.ConjugateGradient.Sparse
