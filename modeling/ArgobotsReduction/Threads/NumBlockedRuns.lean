import Mathlib.Data.List.Induction
import ArgobotsReduction.Threads.NumBlocked

/-!
# Runs of blocking and resuming threads

Every operation keeps the shape of the state and the excess of every counter,
but for one: the end of a blocking callback moves a ULT that is already counted
when it grants a migration.  So the counters are exact in all states of a run
exactly if no ULT is migrated to another pool while it blocks (`exact_iff`).
-/

set_option autoImplicit false

namespace ArgobotsReduction.Threads

universe u v

variable {Ult : Type u} {Pool : Type v}

/-! ## Steps -/

section Steps

variable [Fintype Ult] [DecidableEq Pool] {s : State Ult Pool} {u : Ult}

/-- The shape, and exact counters. -/
structure Invariant (s : State Ult Pool) : Prop where
  shape : Shape none s
  excess : ∀ pool, excess s pool = 0

theorem Invariant.exact (invariant : Invariant s) : Exact s :=
  Exact.of_count fun pool => sub_eq_zero.mp (invariant.excess pool)

theorem Keeps.invariant {after : State Ult Pool} (keeps : Keeps u s after)
    (exact : ∀ pool, Threads.excess s pool = 0) : Invariant after where
  shape := keeps.shape
  excess pool := (keeps.excess pool).trans (exact pool)

theorem invariant_init (memory : Ult → Ythread Ult Pool) : Invariant (init memory) where
  shape :=
    { units := fun pool u member => absurd member List.not_mem_nil
      nodup := fun _ => List.nodup_nil
      callback := fun u inCallback => absurd rfl inCallback
      joiner := fun target joiner joins => absurd rfl joins.1
      unique := fun target other joiner joins => absurd rfl joins.1 }
  excess pool := by
    rw [excess, numWaiting, Finset.filter_false_of_mem, Finset.card_empty]
    · rfl
    · simp [init, Waits]

end Steps

section Targets

variable {s : State Ult Pool} {u target : Ult}

theorem Runs.not_waits (runs : Runs s u) : ¬Waits (s.ult u) := by
  simp [Waits, runs.1, runs.2]

theorem Resumable.not_joins (resumable : Resumable s u) (target : Ult) :
    ¬Joins none s target u :=
  fun joins => resumable.2 target joins.1 joins.2.2

theorem Runs.ne (runs : Runs s u) (resumable : Resumable s target) : target ≠ u := by
  rintro rfl
  exact absurd (runs.1.symm.trans resumable.1) (by simp)

/-- The pool of a ULT once the requests of its blocking callback are handled. -/
def poolAfter (y : Ythread Ult Pool) (migrates : Bool) : Pool :=
  if y.reqMigrate && migrates then y.migrationPool else y.pool

theorem poolAfter_eq_iff {migrates : Bool} (inCallback : (s.ult u).callback ≠ none) :
    poolAfter (s.ult u) migrates = (s.ult u).pool ↔ StaysInPool s u migrates := by
  rw [poolAfter, StaysInPool]
  cases (s.ult u).reqMigrate <;> cases migrates <;> simp [inCallback]

variable [DecidableEq Ult] [DecidableEq Pool]

/-- The joiner of another ULT may be resumed before or after a ULT is set running. -/
theorem resumeJoiner_setRunning {xstream : Option ℕ} (different : target ≠ u)
    (notLinked : (s.ult u).link ≠ some target) :
    (s.setRunning target xstream).resumeJoiner u =
      (s.resumeJoiner u).map (·.setRunning target xstream) := by
  have sameSelf : (s.setRunning target xstream).ult u = s.ult u :=
    State.modify_of_ne different.symm
  rw [State.resumeJoiner, State.resumeJoiner, sameSelf]
  cases linked : (s.ult u).link with
  | none =>
      dsimp only
      split
      · rfl
      · rw [Option.map_some, State.setRunning, State.setRunning,
          State.modify_comm different.symm]
  | some joiner =>
      have apart : joiner ≠ target := fun same => notLinked (same ▸ linked)
      have sameJoiner : (s.setRunning target xstream).ult joiner = s.ult joiner :=
        State.modify_of_ne apart
      simp only [Option.map_some, State.resumeAndPush, State.addThread, sameJoiner]
      exact congrArg some (congrArg (fun m : State Ult Pool =>
        (m.push (s.ult joiner).pool joiner).decNumBlocked (s.ult joiner).pool)
          (State.modify_comm apart))

theorem handleRequest_block (s : State Ult Pool) (u : Ult) (migrates : Bool) :
    ((handleRequest false migrates s u).map Prod.fst).getD s =
      if (s.ult u).reqMigrate && migrates then s.migrate u else s := by
  rw [handleRequest, Bool.false_and, if_neg (by simp)]
  split
  · rfl
  · rfl

end Targets

section Steps

variable [Fintype Ult] [DecidableEq Ult] [DecidableEq Pool] {s : State Ult Pool} {u target : Ult}

/-- **A blocked ULT that runs again leaves the counter of its pool one too high.** -/
theorem Invariant.setRunning (invariant : Invariant s) (xstream : Option ℕ)
    (resumable : Resumable s target) : Shape none (s.setRunning target xstream) ∧
      ∀ pool, Threads.excess (s.setRunning target xstream) pool =
        if (s.ult target).pool = pool then 1 else 0 := by
  have shape := invariant.shape
  have blocked := resumable.1
  have idle := shape.callback_none (u := target) (by simp [blocked])
  refine ⟨shape.setRunning (by simp [blocked]) (shape.notMem_units (by simp [blocked]))
    resumable.not_joins, fun pool => ?_⟩
  rw [State.setRunning, excess_modify, weight_of_waits (Or.inl blocked),
    weight_of_not_waits (by simp [Waits, idle]), invariant.excess, zero_add, sub_zero]

theorem Invariant.create {pool : Pool} {mainSched : Bool} (invariant : Invariant s) :
    Invariant (step s (.create u pool mainSched)) := by
  rw [step]
  split
  · rename_i terminated
    have shape := invariant.shape
    have idle := shape.callback_none (u := u) (by simp [terminated])
    constructor
    · apply Shape.push
      · apply shape.modify
        · exact fun p member =>
            absurd member (shape.notMem_units (by simp [terminated]) p)
        · exact fun inCallback => absurd rfl inCallback
        · exact fun _ => shape.not_joins (by simp [terminated])
        · exact fun joiner _ _ linked => absurd linked (by simp)
      · rw [State.modify_self]
      · rw [State.modify_self]
      · exact shape.notMem_units (by simp [terminated]) pool
    · intro p
      rw [excess_push, excess_modify_idle, invariant.excess]
      · simp [Waits, terminated, idle]
      · simp [Waits]
  · exact invariant

theorem Invariant.modify_flags {f : Ythread Ult Pool → Ythread Ult Pool}
    (invariant : Invariant s) (pool : (f (s.ult u)).pool = (s.ult u).pool)
    (state : (f (s.ult u)).state = (s.ult u).state) (link : (f (s.ult u)).link = (s.ult u).link)
    (callback : (f (s.ult u)).callback = (s.ult u).callback) : Invariant (s.modify u f) where
  shape := invariant.shape.modify_flags pool state link callback
  excess p := by
    rw [excess_modify_same (by rw [Waits, Waits, state, callback]) pool, invariant.excess]

theorem Invariant.schedule {pool : Pool} {xstream : ℕ} {migrates : Bool}
    (invariant : Invariant s) : Invariant (step s (.schedule u pool xstream migrates)) := by
  rw [step]
  split
  · rename_i member
    have ready := (invariant.shape.units pool u member).1
    have shape := invariant.shape.remove pool u
    have absent := invariant.shape.notMem_remove member
    have live : ((s.remove pool u).ult u).state ≠ .terminated := by simp [ready]
    have idle : ¬Waits ((s.remove pool u).ult u) := by
      simp [Waits, ready, invariant.shape.callback_none (u := u) (by simp [ready])]
    have exact : ∀ p, Threads.excess (s.remove pool u) p = 0 := invariant.excess
    split
    · exact invariant
    · rename_i handles
      rcases handleRequest_cases handles with ⟨-, rfl⟩ | ⟨absurdity, -⟩ | ⟨absurdity, -⟩
      · constructor
        · exact shape.setRunning live absent (shape.not_joins (by simp [ready]))
        · intro p
          rw [State.setRunning, excess_modify_idle idle, exact]
          simp only [Waits, not_or, not_not] at idle ⊢
          exact ⟨by simp, idle.2⟩
      · exact absurd absurdity (by simp)
      · exact absurd absurdity (by simp)
    · rename_i handles
      rcases handleRequest_cases handles with
        ⟨absurdity, -⟩ | ⟨absurdity, -⟩ | ⟨-, resumed, resumes, rfl⟩
      · exact absurd absurdity (by simp)
      · exact absurd absurdity (by simp)
      · exact (shape.resumeJoiner_terminate live idle absent resumes).invariant exact
    · rename_i handles
      rcases handleRequest_cases handles with ⟨absurdity, -⟩ | ⟨-, rfl⟩ | ⟨absurdity, -⟩
      · exact absurd absurdity (by simp)
      · refine ((shape.keeps_migrate idle absent).addThread ?_ ?_ absent).invariant exact
        · rw [State.migrate, State.modify_self]
          exact live
        · rw [State.migrate, State.modify_self]
          exact idle
      · exact absurd absurdity (by simp)
  · exact invariant

theorem Invariant.yield {migrates : Bool} (invariant : Invariant s) :
    Invariant (step s (.yield u migrates)) := by
  rw [step]
  split
  · rename_i runs
    cases yields : callbackYield migrates s u with
    | none => exact invariant
    | some after => exact (invariant.shape.callbackYield runs yields).invariant invariant.excess
  · exact invariant

theorem Invariant.threadYieldTo {removed migrates : Bool} (invariant : Invariant s) :
    Invariant (step s (.threadYieldTo u target removed migrates)) := by
  rw [step]
  split
  · rename_i allowed
    obtain ⟨runs, -, different, member⟩ := allowed
    have ready := (invariant.shape.units _ target member).1
    have idle := invariant.shape.callback_none (u := target) (by simp [ready])
    dsimp only
    split
    · have shape : Shape none (s.incNumBlocked (s.ult u).pool) :=
        invariant.shape.counters rfl rfl
      have switched : Shape none (((s.incNumBlocked (s.ult u).pool).remove (s.ult target).pool
          target).setRunning target (s.ult u).lastXstream) :=
        (shape.remove _ target).setRunning (by simp [ready]) (shape.notMem_remove member)
          ((shape.remove _ target).not_joins (by simp [ready]))
      have excess : ∀ pool, Threads.excess (((s.incNumBlocked (s.ult u).pool).remove
          (s.ult target).pool target).setRunning target (s.ult u).lastXstream) pool =
          if (s.ult u).pool = pool then 1 else 0 := by
        intro pool
        rw [State.setRunning, excess_modify_idle, excess_remove, excess_incNumBlocked,
          invariant.excess, zero_add]
        · simp [Waits, ready, idle]
        · simp [Waits, idle]
      have stillRuns : Runs (((s.incNumBlocked (s.ult u).pool).remove (s.ult target).pool
          target).setRunning target (s.ult u).lastXstream) u := by
        rw [Runs, State.setRunning, State.modify_of_ne different.symm]
        exact runs
      cases yields : callbackYield migrates (((s.incNumBlocked (s.ult u).pool).remove
          (s.ult target).pool target).setRunning target (s.ult u).lastXstream) u with
      | none => exact invariant
      | some after =>
          have keeps := switched.callbackYield stillRuns yields
          constructor
          · exact keeps.shape.counters rfl rfl
          · intro pool
            change Threads.excess (after.decNumBlocked (s.ult u).pool) pool = 0
            rw [excess_decNumBlocked, keeps.excess, excess, sub_self]
    · constructor
      · exact invariant.shape.counters rfl rfl
      · intro pool
        rw [excess_decNumBlocked, excess_incNumBlocked, invariant.excess, zero_add, sub_self]
  · exact invariant

theorem Invariant.resumeYieldTo {migrates : Bool} (invariant : Invariant s) :
    Invariant (step s (.resumeYieldTo u target migrates)) := by
  rw [step]
  split
  · rename_i allowed
    obtain ⟨runs, -, resumable⟩ := allowed
    have different := runs.ne resumable
    obtain ⟨shape, excess⟩ := invariant.setRunning (s.ult u).lastXstream resumable
    have stillRuns : Runs (s.setRunning target (s.ult u).lastXstream) u := by
      rw [Runs, State.setRunning, State.modify_of_ne different.symm]
      exact runs
    have running : ((s.setRunning target (s.ult u).lastXstream).ult target).state = .running := by
      rw [State.setRunning, State.modify_self]
    dsimp only
    cases yields : callbackYield migrates (s.setRunning target (s.ult u).lastXstream) u with
    | none => exact invariant
    | some after =>
        have keeps := shape.callbackYield stillRuns yields
        have samePool : (after.ult target).pool = (s.ult target).pool := by
          rw [keeps.others target different (shape.not_joins (by simp [running]) u),
            State.setRunning, State.modify_self]
        constructor
        · exact keeps.shape.counters rfl rfl
        · intro pool
          change Threads.excess (after.decNumBlocked (after.ult target).pool) pool = 0
          rw [excess_decNumBlocked, keeps.excess, excess, samePool, sub_self]
  · exact invariant

theorem Invariant.resumeExitTo (invariant : Invariant s) :
    Invariant (step s (.resumeExitTo u target)) := by
  rw [step]
  split
  · rename_i allowed
    obtain ⟨runs, -, resumable⟩ := allowed
    have different := runs.ne resumable
    obtain ⟨shape, excess⟩ := invariant.setRunning (s.ult u).lastXstream resumable
    have sameSelf : (s.setRunning target (s.ult u).lastXstream).ult u = s.ult u :=
      State.modify_of_ne different.symm
    have running : ((s.setRunning target (s.ult u).lastXstream).ult target).state = .running := by
      rw [State.setRunning, State.modify_self]
    have notLinked : (s.ult u).link ≠ some target := resumable.2 u (by simp [runs.1])
    cases resumes : s.resumeJoiner u with
    | none => exact invariant
    | some resumed =>
        have keeps : Keeps u (s.setRunning target (s.ult u).lastXstream)
            ((resumed.setRunning target (s.ult u).lastXstream).terminate u) :=
          shape.resumeJoiner_terminate (by simp [sameSelf, runs.1])
            (by rw [sameSelf]; exact runs.not_waits)
          (shape.notMem_units (by simp [sameSelf, runs.1]))
          (by rw [resumeJoiner_setRunning different notLinked, resumes, Option.map_some])
        have samePool : (((resumed.setRunning target (s.ult u).lastXstream).terminate u).ult
            target).pool = (s.ult target).pool := by
          rw [keeps.others target different (shape.not_joins (by simp [running]) u),
            State.setRunning, State.modify_self]
        constructor
        · exact keeps.shape.counters rfl rfl
        · intro pool
          simp only [Option.map_some, Option.getD_some]
          rw [excess_decNumBlocked, keeps.excess, excess, samePool, sub_self]
  · exact invariant

theorem Invariant.resume (invariant : Invariant s) : Invariant (step s (.resume u)) := by
  rw [step]
  split
  · rename_i resumable
    have blocked := resumable.1
    have idle := invariant.shape.callback_none (u := u) (by simp [blocked])
    constructor
    · exact (invariant.shape.addThread (by simp [blocked]) idle
        (invariant.shape.notMem_units (by simp [blocked])) resumable.not_joins).counters rfl rfl
    · intro pool
      rw [excess_resumeAndPush blocked idle, invariant.excess]
  · exact invariant

theorem Invariant.exit (invariant : Invariant s) : Invariant (step s (.exit u)) := by
  have shape := invariant.shape
  rw [step]
  split
  · rename_i runs
    have live : (s.ult u).state ≠ .terminated := by simp [runs.1]
    have absent := shape.notMem_units (u := u) (by simp [runs.1])
    have ends : ∀ resumed, s.resumeJoiner u = some resumed → Invariant (resumed.terminate u) :=
      fun resumed resumes => (shape.resumeJoiner_terminate live runs.not_waits absent
        resumes).invariant invariant.excess
    cases linked : (s.ult u).link with
    | none =>
        dsimp only
        split
        · exact invariant
        · rename_i notJoined
          exact ends _ (by rw [State.resumeJoiner, linked]; exact if_neg notJoined)
    | some joiner =>
        dsimp only
        split
        · have joins : Joins none s u joiner := ⟨live, Option.some_ne_none _, linked⟩
          have blocked := shape.joiner u joiner joins
          have different : u ≠ joiner := by
            rintro rfl
            exact absurd (runs.1.symm.trans blocked) (by simp)
          have idle := shape.callback_none (u := joiner) (by simp [blocked])
          have sameSelf : ((s.decNumBlocked (s.ult joiner).pool).setRunning joiner
              (s.ult u).lastXstream).ult u = s.ult u := State.modify_of_ne different
          have free : ∀ target, ¬Joins (some u) s target joiner := by
            rintro target ⟨targetLive, notDying, targetLinked⟩
            exact notDying (congrArg some (shape.unique target u joiner
              ⟨targetLive, Option.some_ne_none _, targetLinked⟩ joins))
          have jumps : Shape (some u) ((s.decNumBlocked (s.ult joiner).pool).setRunning joiner
              (s.ult u).lastXstream) := by
            apply Shape.setRunning
            · exact (shape.begin_end u).counters rfl rfl
            · simp [blocked]
            · exact shape.notMem_units (by simp [blocked])
            · exact free
          constructor
          · apply jumps.terminate absent
            · rw [sameSelf]
              exact runs.2
            · simp [sameSelf, runs.1]
          · intro pool
            rw [State.terminate, excess_modify_idle, State.setRunning, excess_modify,
              excess_decNumBlocked, invariant.excess, State.decNumBlocked_ult,
              weight_of_waits (Or.inl blocked), weight_of_not_waits (by simp [Waits, idle])]
            · abel
            · rw [sameSelf]
              exact runs.not_waits
            · simp [Waits, sameSelf, runs.2]
        · exact ends _ (by rw [State.resumeJoiner, linked])
  · exact invariant

/-- A running ULT enters a blocking callback. -/
theorem Shape.enterCallback (shape : Shape none s) (callback : Suspension Ult)
    (runs : Runs s u) :
    Shape none (s.modify u fun y => { y with callback := some callback }) ∧
      ∀ pool, excess (s.modify u fun y => { y with callback := some callback }) pool =
        excess s pool - if (s.ult u).pool = pool then 1 else 0 := by
  constructor
  · apply shape.modify
    · exact fun pool member => absurd member (shape.notMem_units (by simp [runs.1]) pool)
    · exact fun _ => runs.1
    · exact fun _ => shape.not_joins (by simp [runs.1])
    · exact fun joiner live notDying linked => ⟨live, notDying, linked⟩
  · intro pool
    rw [excess_modify, weight_of_not_waits runs.not_waits,
      weight_of_waits (Or.inr (Option.some_ne_none callback)), add_zero]

theorem Invariant.suspend {callback : Suspension Ult} (invariant : Invariant s) :
    Invariant (step s (.suspend u callback)) := by
  rw [step]
  split
  · rename_i allowed
    obtain ⟨runs, can⟩ := allowed
    obtain ⟨before, sameUlt⟩ : Invariant (announceJoin s callback) ∧
        (announceJoin s callback).ult u = s.ult u := by
      cases callback with
      | suspendJoin target =>
          rw [announceJoin]
          exact ⟨invariant.modify_flags rfl rfl rfl rfl, State.modify_of_ne can.1.symm⟩
      | _ => exact ⟨invariant, rfl⟩
    have counted : Shape none ((announceJoin s callback).incNumBlocked (s.ult u).pool) :=
      before.shape.counters rfl rfl
    have stillRuns : Runs ((announceJoin s callback).incNumBlocked (s.ult u).pool) u := by
      rw [Runs, State.incNumBlocked_ult, sameUlt]
      exact runs
    obtain ⟨shape, excess⟩ := counted.enterCallback callback stillRuns
    constructor
    · exact shape
    · intro pool
      rw [excess, excess_incNumBlocked, before.excess, State.incNumBlocked_ult, sameUlt, zero_add,
        sub_self]
  · exact invariant

theorem Invariant.resumeSuspendTo (invariant : Invariant s) :
    Invariant (step s (.resumeSuspendTo u target)) := by
  rw [step]
  split
  · rename_i allowed
    obtain ⟨runs, -, resumable⟩ := allowed
    have different := runs.ne resumable
    obtain ⟨switchedShape, switchedExcess⟩ :=
      invariant.setRunning (s.ult u).lastXstream resumable
    dsimp only
    generalize same : (if (s.ult u).pool ≠ (s.ult target).pool then
      ((s.setRunning target (s.ult u).lastXstream).incNumBlocked (s.ult u).pool).decNumBlocked
        (s.ult target).pool
      else s.setRunning target (s.ult u).lastXstream) = counted
    obtain ⟨countedShape, countedExcess, sameUlt⟩ : Shape none counted ∧
        (∀ pool, Threads.excess counted pool = if (s.ult u).pool = pool then 1 else 0) ∧
          counted.ult u = s.ult u := by
      have sameUlt : (s.setRunning target (s.ult u).lastXstream).ult u = s.ult u :=
        State.modify_of_ne different.symm
      rw [← same]
      split
      · refine ⟨switchedShape.counters rfl rfl, fun pool => ?_, sameUlt⟩
        rw [excess_decNumBlocked, excess_incNumBlocked, switchedExcess]
        exact add_sub_cancel_left _ _
      · rename_i samePool
        refine ⟨switchedShape, fun pool => ?_, sameUlt⟩
        rw [switchedExcess, not_not.mp samePool]
    have stillRuns : Runs counted u := by
      rw [Runs, sameUlt]
      exact runs
    obtain ⟨shape, excess⟩ :=
      countedShape.enterCallback .resumeSuspendTo stillRuns
    constructor
    · exact shape
    · intro pool
      rw [excess, countedExcess, sameUlt, sub_self]
  · exact invariant

/-! ## The end of a blocking callback -/

/-- A ULT in a blocking callback takes its place among the waiting ULTs along. -/
theorem Shape.handleBlocking (shape : Shape none s) (migrates : Bool)
    (inCallback : (s.ult u).callback ≠ none) :
    ∃ handled : State Ult Pool,
      ((handleRequest false migrates s u).map Prod.fst).getD s = handled ∧ Shape none handled ∧
        (handled.ult u).state = .running ∧ (handled.ult u).callback ≠ none ∧
        ∀ pool, excess handled pool =
          excess s pool + (if (s.ult u).pool = pool then 1 else 0) -
            if poolAfter (s.ult u) migrates = pool then 1 else 0 := by
  have waits : Waits (s.ult u) := Or.inr inCallback
  have running := shape.callback u inCallback
  refine ⟨_, handleRequest_block s u migrates, ?_⟩
  rw [poolAfter]
  split
  · refine ⟨shape.migrate (shape.notMem_units (by simp [running])), ?_, ?_, fun pool => ?_⟩
    · rw [State.migrate, State.modify_self]
      exact running
    · rw [State.migrate, State.modify_self]
      exact inCallback
    · have moved : Waits { s.ult u with pool := (s.ult u).migrationPool, reqMigrate := false } :=
        Or.inr inCallback
      rw [State.migrate, excess_modify, weight_of_waits waits, weight_of_waits moved]
  · exact ⟨shape, running, inCallback, fun pool => (add_sub_cancel_right _ _).symm⟩

/-- **The end of a blocking callback shifts the excess by the change of pool.** -/
theorem Shape.callbackBlock {callback : Suspension Ult} (shape : Shape none s) (migrates : Bool)
    (inCallback : (s.ult u).callback = some callback) :
    Shape none (callbackBlock migrates s u callback) ∧
      ∀ pool, excess (Threads.callbackBlock migrates s u callback) pool =
        excess s pool + (if (s.ult u).pool = pool then 1 else 0) -
          if poolAfter (s.ult u) migrates = pool then 1 else 0 := by
  obtain ⟨handled, same, handledShape, running, stillIn, handledExcess⟩ :=
    shape.handleBlocking migrates (u := u) (by simp [inCallback])
  have blocked := handledShape.block running
  have blockedExcess : ∀ pool, excess (handled.modify u fun y =>
      { y with state := .blocked, callback := none }) pool = excess handled pool :=
    excess_modify_same ⟨fun _ => Or.inr stillIn, fun _ => Or.inl rfl⟩ rfl
  have state : ((handled.modify u fun y =>
      { y with state := .blocked, callback := none }).ult u).state = .blocked := by
    rw [State.modify_self]
  have notJoined : ∀ target, ¬Joins none (handled.modify u fun y =>
      { y with state := .blocked, callback := none }) target u := by
    rintro target ⟨live, -, linked⟩
    rcases eq_or_ne target u with rfl | different
    · rw [State.modify_self] at linked
      exact handledShape.not_joins (by simp [running]) target
        ⟨by simp [running], Option.some_ne_none _, linked⟩
    · rw [State.modify_of_ne different] at live linked
      exact handledShape.not_joins (by simp [running]) target ⟨live, Option.some_ne_none _, linked⟩
  rw [Threads.callbackBlock, same]
  cases callback with
  | suspendJoin target =>
      rw [linkJoiner]
      refine ⟨blocked.setLink state notJoined, fun pool => ?_⟩
      rw [excess_modify_same Iff.rfl rfl, blockedExcess, handledExcess]
  | _ => exact ⟨blocked, fun pool => (blockedExcess pool).trans (handledExcess pool)⟩

/-- **A ULT that stays in its pool is counted there.** -/
theorem Invariant.finishSuspend {migrates : Bool} (invariant : Invariant s)
    (stays : StaysInPool s u migrates) : Invariant (step s (.finishSuspend u migrates)) := by
  rw [step]
  cases inCallback : (s.ult u).callback with
  | none => exact invariant
  | some callback =>
      obtain ⟨shape, excess⟩ := invariant.shape.callbackBlock migrates inCallback
      refine ⟨shape, fun pool => ?_⟩
      rw [excess, (poolAfter_eq_iff (by simp [inCallback])).mpr stays, invariant.excess]
      exact add_sub_cancel_right _ _

/-- **A ULT that leaves its pool is still counted there.** -/
theorem Invariant.not_exact {migrates : Bool} (invariant : Invariant s)
    (leaves : ¬StaysInPool s u migrates) : ¬Exact (step s (.finishSuspend u migrates)) := by
  intro exact
  cases inCallback : (s.ult u).callback with
  | none => exact leaves fun some_ => absurd inCallback some_
  | some callback =>
      obtain ⟨-, excess⟩ := invariant.shape.callbackBlock migrates inCallback
      have moved : poolAfter (s.ult u) migrates ≠ (s.ult u).pool := fun same =>
        leaves ((poolAfter_eq_iff (by simp [inCallback])).mp same)
      have counted := exact.count (s.ult u).pool
      rw [step, inCallback] at counted
      have zero := (excess (s.ult u).pool).symm.trans (sub_eq_zero.mpr counted)
      rw [invariant.excess, if_pos rfl, if_neg moved] at zero
      exact absurd zero (by decide)

/-- **One operation keeps the invariant**, unless it migrates a ULT that blocks. -/
theorem Invariant.step {event : Event Ult Pool} (invariant : Invariant s)
    (stays : ∀ u migrates, event = .finishSuspend u migrates → StaysInPool s u migrates) :
    Invariant (step s event) := by
  cases event with
  | create u pool mainSched => exact invariant.create
  | requestMigration u pool =>
      rw [Threads.step]
      split
      · exact invariant.modify_flags rfl rfl rfl rfl
      · exact invariant
  | requestCancel u =>
      rw [Threads.step]
      exact invariant.modify_flags rfl rfl rfl rfl
  | schedule u pool xstream migrates => exact invariant.schedule
  | yield u migrates => exact invariant.yield
  | threadYieldTo u target removed migrates => exact invariant.threadYieldTo
  | suspend u callback => exact invariant.suspend
  | finishSuspend u migrates => exact invariant.finishSuspend (stays u migrates rfl)
  | resume u => exact invariant.resume
  | resumeYieldTo u target migrates => exact invariant.resumeYieldTo
  | resumeSuspendTo u target => exact invariant.resumeSuspendTo
  | resumeExitTo u target => exact invariant.resumeExitTo
  | exit u => exact invariant.exit

/-! ## Runs -/

/-- **The counters of blocked ULTs are exact in every state of a run exactly if no
ULT is migrated to another pool while it blocks.** -/
theorem exact_iff (memory : Ult → Ythread Ult Pool) (events : List (Event Ult Pool)) :
    (∀ before, before <+: events → Exact (run memory before)) ↔
      ∀ before u migrates, before ++ [.finishSuspend u migrates] <+: events →
        StaysInPool (run memory before) u migrates := by
  constructor
  · intro exact
    have stays : ∀ before u migrates, before ++ [.finishSuspend u migrates] <+: events →
        Invariant (run memory before) → StaysInPool (run memory before) u migrates := by
      intro before u migrates reached invariant
      by_contra leaves
      apply invariant.not_exact leaves
      rw [← run_append_singleton]
      exact exact _ reached
    have invariant : ∀ before, before <+: events → Invariant (run memory before) := by
      intro before
      induction before using List.reverseRecOn with
      | nil => exact fun _ => invariant_init memory
      | append_singleton before event ih =>
          intro reached
          have earlier := ih ((List.prefix_append _ _).trans reached)
          rw [run_append_singleton]
          apply earlier.step
          rintro u migrates rfl
          exact stays before u migrates reached earlier
    exact fun before u migrates reached => stays before u migrates reached
      (invariant before ((List.prefix_append _ _).trans reached))
  · intro stays before
    suffices before <+: events → Invariant (run memory before) from fun reached =>
      (this reached).exact
    induction before using List.reverseRecOn with
    | nil => exact fun _ => invariant_init memory
    | append_singleton before event ih =>
        intro reached
        rw [run_append_singleton]
        apply (ih ((List.prefix_append _ _).trans reached)).step
        rintro u migrates rfl
        exact stays before u migrates reached

end Steps

/-- The memory of a ULT. -/
def blank : Ythread Unit Bool where
  pool := false
  state := .terminated
  lastXstream := none
  mainSched := false
  reqJoin := false
  reqCancel := false
  reqMigrate := false
  migrationPool := false
  link := none
  callback := none

/-- A ULT of one pool is asked to migrate to another, suspends, and is resumed: no
ULT is blocked, and the pools count one and minus one. -/
theorem not_exact_run :
    ¬Exact (run (fun _ => blank) [.create () false false, .schedule () false 0 true,
      .requestMigration () true, .suspend () .suspend, .finishSuspend () true, .resume ()]) := by
  intro exact
  exact absurd (exact.nonneg true) (by decide)

end ArgobotsReduction.Threads
