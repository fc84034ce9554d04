import Mathlib.Logic.Relation
import ArgobotsReduction.Threads.Migration

/-!
# The target of a migration

`ABT_thread_migrate_to_xstream` moves a work unit to the main scheduler of a stream,
unless the unit already is in one of its pools.  `ABT_thread_migrate` looks for such a
stream.  It makes the same test by itself, but with the comparison the other way, and so
accepts exactly the streams all of whose pools are the pool of the unit.

Therefore it finds a valid target only where there is none.  The exact condition is that
each stream in question shares the pool of the unit, and also has another pool
(`findsTarget_iff`).

The main schedulers are set, and the checks of the arguments are enabled.
-/

set_option autoImplicit false

namespace ArgobotsReduction.Threads.MigrationTarget

open Migration (WorkUnit Requester)

universe u v

variable {ι : Type u} {Pool : Type v}

/-! ## Streams and work units -/

/-- The error codes -/
inductive Code where
  | success
  /-- `ABT_ERR_INV_THREAD` -/
  | invThread
  /-- `ABT_ERR_MIGRATION_TARGET` -/
  | migrationTarget
  /-- `ABT_ERR_MIGRATION_NA` -/
  | migrationNa
  /-- `ABT_ERR_MEM` -/
  | mem
  deriving DecidableEq

/-- The states of a stream -/
inductive XstreamState where
  | running
  | terminated
  deriving DecidableEq

/-- A scheduler with its pools.  What `get_migr_pool` returns must be one of them; it may also
be `ABT_POOL_NULL`, or the function may not be defined. -/
structure Sched (Pool : Type v) where
  pools : List Pool
  getMigrPool : Option (Option Pool)
  returns_mem : ∀ pool, getMigrPool = some (some pool) → pool ∈ pools

/-- An execution stream with its main scheduler -/
structure Xstream (ι : Type u) (Pool : Type v) where
  id : ι
  state : XstreamState
  mainSched : Sched Pool

/-- A work unit: two flags of its type, its last stream, and what concerns requests -/
structure Thread (ι : Type u) (Pool : Type v) where
  typeMigratable : Bool
  typeMainSched : Bool
  lastXstream : Option ι
  unit : WorkUnit Pool

/-- Which allocations succeed: that of the array of streams, and that of the migration record
when a stream is tried -/
structure Allocations (ι : Type u) where
  xstreams : Bool
  migData : ι → Bool

/-! ## The code -/

/-- `ABTI_sched_get_migration_pool` -/
def Sched.getMigrationPool (sched : Sched Pool) : Except Code Pool :=
  match sched.getMigrPool with
  | none =>
      match sched.pools with
      | [] => .error .migrationTarget
      | pool :: _ => .ok pool
  | some none => .error .migrationTarget
  | some (some pool) => .ok pool

/-- `thread_migrate_to_pool`, where no other requester takes a turn in between -/
def threadMigrateToPool (allocates : Bool) (target : Pool) (unit : WorkUnit Pool) :
    Code × WorkUnit Pool :=
  let request (record : ℕ) (unit : WorkUnit Pool) : Code × WorkUnit Pool :=
    (.success, { unit with
      migrationPool := Function.update unit.migrationPool record (some target)
      lastRequest := some target
      reqMigrate := true })
  match unit.migData with
  | some record => request record unit
  | none =>
      if allocates then request unit.records (unit.calloc.setMigData unit.records)
      else (.mem, unit)

section Search

variable [DecidableEq ι] [DecidableEq Pool]

/-- The loop over the pools in `ABT_thread_migrate_to_xstream` -/
def checkPools (current : Option Pool) : List Pool → Code
  | [] => .success
  | pool :: pools => if some pool ≠ current then checkPools current pools else .migrationTarget

/-- `ABT_thread_migrate_to_xstream` -/
def threadMigrateToXstream (allocates : Allocations ι) (xstream : Xstream ι Pool)
    (thread : Thread ι Pool) : Code × WorkUnit Pool :=
  if thread.typeMigratable = false then (.invThread, thread.unit)
  else if thread.typeMainSched = true then (.invThread, thread.unit)
  else if checkPools thread.unit.pool xstream.mainSched.pools ≠ .success then
    (checkPools thread.unit.pool xstream.mainSched.pools, thread.unit)
  else
    match xstream.mainSched.getMigrationPool with
    | .error code => (code, thread.unit)
    | .ok pool => threadMigrateToPool (allocates.migData xstream.id) pool thread.unit

/-- The loop over the pools in `ABT_thread_migrate` -/
def isValid (current : Option Pool) : List Pool → Bool
  | [] => true
  | pool :: pools => if some pool ≠ current then false else isValid current pools

/-- The loop over the streams in `ABT_thread_migrate` -/
def chooseXstream (allocates : Allocations ι) (thread : Thread ι Pool) :
    List (Xstream ι Pool) → Code × WorkUnit Pool
  | [] => (.migrationNa, thread.unit)
  | xstream :: xstreams =>
      if some xstream.id = thread.lastXstream then chooseXstream allocates thread xstreams
      else if xstream.state ≠ .running then chooseXstream allocates thread xstreams
      else if isValid thread.unit.pool xstream.mainSched.pools = false then
        chooseXstream allocates thread xstreams
      else
        match xstream.mainSched.getMigrationPool with
        | .error _ => chooseXstream allocates thread xstreams
        | .ok pool =>
            let (code, unit) :=
              threadMigrateToPool (allocates.migData xstream.id) pool thread.unit
            if code ≠ .success then chooseXstream allocates thread xstreams else (code, unit)

/-- `ABT_thread_migrate`, with the streams in the order of their list -/
def threadMigrate (allocates : Allocations ι) (xstreams : List (Xstream ι Pool))
    (thread : Thread ι Pool) : Code × WorkUnit Pool :=
  if thread.typeMigratable = false then (.invThread, thread.unit)
  else if thread.typeMainSched = true then (.invThread, thread.unit)
  else if allocates.xstreams = false then (.mem, thread.unit)
  else chooseXstream allocates thread xstreams

/-! ## What has to hold -/

/-- The unit may be migrated. -/
def Thread.Migratable (thread : Thread ι Pool) : Prop :=
  thread.typeMigratable = true ∧ thread.typeMainSched = false

/-- All allocations succeed. -/
def Allocations.Succeed (allocates : Allocations ι) : Prop :=
  allocates.xstreams = true ∧ ∀ i, allocates.migData i = true

/-- The stream is running, and is not the last stream of the unit. -/
def Xstream.Other (xstream : Xstream ι Pool) (thread : Thread ι Pool) : Prop :=
  some xstream.id ≠ thread.lastXstream ∧ xstream.state = .running

/-- The scheduler has a pool for migration, and none of its pools is that of the unit. -/
def Sched.IsTarget (sched : Sched Pool) (unit : WorkUnit Pool) (target : Pool) : Prop :=
  (∀ pool ∈ sched.pools, some pool ≠ unit.pool) ∧ sched.getMigrationPool = .ok target

/-- A unit with a request for a migration to a pool -/
def Requests (unit : WorkUnit Pool) (target : Pool) : Prop :=
  unit.reqMigrate = true ∧ unit.recordedPool = some target

/-- What `ABT_thread_migrate` is for.  It accepts a stream where it succeeds with this stream
alone. -/
structure FindsTarget (allocates : Allocations ι) (xstreams : List (Xstream ι Pool))
    (thread : Thread ι Pool) : Prop where
  found : (∃ xstream ∈ xstreams, xstream.Other thread ∧
      ∃ target, xstream.mainSched.IsTarget thread.unit target) →
    (threadMigrate allocates xstreams thread).1 = .success ∧
      ∃ xstream ∈ xstreams, xstream.Other thread ∧ ∃ target,
        xstream.mainSched.IsTarget thread.unit target ∧ some target ≠ thread.unit.pool ∧
          Requests (threadMigrate allocates xstreams thread).2 target
  none : (¬ ∃ xstream ∈ xstreams, xstream.Other thread ∧
      ∃ target, xstream.mainSched.IsTarget thread.unit target) →
    threadMigrate allocates xstreams thread = (.migrationNa, thread.unit)
  accepts : ∀ xstream ∈ xstreams, xstream.Other thread →
    ((threadMigrate allocates [xstream] thread).1 = .success ↔
      (threadMigrateToXstream allocates xstream thread).1 = .success)

/-- The scheduler shares the pool of the unit, and has another pool, if it has a pool for
migration at all. -/
def Sched.Mixed (sched : Sched Pool) (unit : WorkUnit Pool) : Prop :=
  (∃ target, sched.getMigrationPool = .ok target) →
    (∃ pool ∈ sched.pools, some pool = unit.pool) ∧ ∃ pool ∈ sched.pools, some pool ≠ unit.pool

/-! ## The tests -/

theorem checkPools_eq_success {current : Option Pool} {pools : List Pool} :
    checkPools current pools = .success ↔ ∀ pool ∈ pools, some pool ≠ current := by
  induction pools with
  | nil => simp [checkPools]
  | cons pool pools ih =>
      rw [checkPools, List.forall_mem_cons]
      by_cases other : some pool ≠ current
      · rw [if_pos other, ih]
        exact ⟨fun all => ⟨other, all⟩, fun all => all.2⟩
      · rw [if_neg other]
        exact ⟨nofun, fun all => absurd all.1 other⟩

theorem isValid_iff {current : Option Pool} {pools : List Pool} :
    isValid current pools = true ↔ ∀ pool ∈ pools, some pool = current := by
  induction pools with
  | nil => simp [isValid]
  | cons pool pools ih =>
      rw [isValid, List.forall_mem_cons]
      by_cases other : some pool ≠ current
      · rw [if_pos other]
        exact ⟨nofun, fun all => absurd all.1 other⟩
      · rw [if_neg other, ih]
        exact ⟨fun all => ⟨not_not.mp other, all⟩, fun all => all.2⟩

omit [DecidableEq ι] [DecidableEq Pool] in
/-- The pool for migration is one of the pools of the scheduler. -/
theorem Sched.mem_of_getMigrationPool {sched : Sched Pool} {target : Pool}
    (provides : sched.getMigrationPool = .ok target) : target ∈ sched.pools := by
  unfold getMigrationPool at provides
  split at provides
  · split at provides
    · cases provides
    · next pools =>
        cases provides
        rw [pools]
        exact List.mem_cons_self
  · cases provides
  · next returns =>
      cases provides
      exact sched.returns_mem _ returns

omit [DecidableEq ι] [DecidableEq Pool] in
/-- A scheduler whose pools are all that of the unit has no target. -/
theorem Sched.not_isTarget_of_forall {sched : Sched Pool} {unit : WorkUnit Pool} {target : Pool}
    (same : ∀ pool ∈ sched.pools, some pool = unit.pool) : ¬ sched.IsTarget unit target := by
  intro isTarget
  have member := mem_of_getMigrationPool isTarget.2
  exact isTarget.1 target member (same target member)

/-! ## The request -/

omit [DecidableEq ι] [DecidableEq Pool] in
theorem threadMigrateToPool_requests (target : Pool) (unit : WorkUnit Pool) :
    (threadMigrateToPool true target unit).1 = .success ∧
      Requests (threadMigrateToPool true target unit).2 target := by
  unfold threadMigrateToPool
  cases migData : unit.migData with
  | some record =>
      refine ⟨rfl, rfl, ?_⟩
      simp [WorkUnit.recordedPool, migData]
  | none =>
      refine ⟨rfl, rfl, ?_⟩
      simp [WorkUnit.recordedPool, WorkUnit.setMigData]

omit [DecidableEq ι] [DecidableEq Pool] in
/-- The turns of a requester, one after the other, do the same. -/
theorem turns_threadMigrateToPool (target : Pool) (unit : WorkUnit Pool) :
    Relation.ReflTransGen
      (fun s t : WorkUnit Pool × Requester =>
        Migration.threadMigrateToPool target s.1 s.2 = some t)
      (unit, .begin) ((threadMigrateToPool true target unit).2, .done) := by
  unfold threadMigrateToPool
  cases migData : unit.migData with
  | some record =>
      refine .head (b := (unit, .storePool record)) ?_ (.head (.refl _) (.single rfl))
      simp [Migration.threadMigrateToPool, WorkUnit.getMigData, migData]
  | none =>
      refine .head (b := (unit.calloc, .setData unit.records)) ?_
        (.head (.refl _) (.head (.refl _) (.single rfl)))
      simp [Migration.threadMigrateToPool, WorkUnit.getMigData, migData]

variable {allocates : Allocations ι} {thread : Thread ι Pool} {xstream : Xstream ι Pool}

omit [DecidableEq ι] in
/-- `ABT_thread_migrate_to_xstream` succeeds exactly where the stream has a target. -/
theorem threadMigrateToXstream_eq_success (succeed : allocates.Succeed)
    (migratable : thread.Migratable) :
    (threadMigrateToXstream allocates xstream thread).1 = .success ↔
      ∃ target, xstream.mainSched.IsTarget thread.unit target := by
  unfold threadMigrateToXstream
  rw [if_neg (by simp [migratable.1]), if_neg (by simp [migratable.2])]
  by_cases shares : checkPools thread.unit.pool xstream.mainSched.pools ≠ .success
  · rw [if_pos shares]
    refine ⟨fun success => absurd success shares, ?_⟩
    rintro ⟨target, isTarget⟩
    exact absurd (checkPools_eq_success.mpr isTarget.1) shares
  · rw [if_neg shares]
    have others := checkPools_eq_success.mp (not_not.mp shares)
    cases provides : xstream.mainSched.getMigrationPool with
    | error code =>
        have fails : code = .migrationTarget := by
          unfold Sched.getMigrationPool at provides
          split at provides
          · split at provides
            · cases provides
              rfl
            · cases provides
          · cases provides
            rfl
          · cases provides
        subst fails
        refine ⟨nofun, ?_⟩
        rintro ⟨target, isTarget⟩
        rw [isTarget.2] at provides
        cases provides
    | ok target =>
        dsimp only
        rw [succeed.2]
        exact ⟨fun _ => ⟨target, others, provides⟩,
          fun _ => (threadMigrateToPool_requests target thread.unit).1⟩

/-! ## The search -/

/-- What the loop over the streams accepts -/
def Accepts (thread : Thread ι Pool) (xstream : Xstream ι Pool) (target : Pool) : Prop :=
  xstream.Other thread ∧ (∀ pool ∈ xstream.mainSched.pools, some pool = thread.unit.pool) ∧
    xstream.mainSched.getMigrationPool = .ok target

theorem chooseXstream_of_accepts (succeed : allocates.Succeed) {target : Pool}
    {xstreams : List (Xstream ι Pool)} (accepts : Accepts thread xstream target) :
    chooseXstream allocates thread (xstream :: xstreams) =
      threadMigrateToPool true target thread.unit := by
  obtain ⟨⟨notLast, running⟩, same, provides⟩ := accepts
  rw [chooseXstream, if_neg notLast, if_neg (not_not.mpr running),
    if_neg (by simp [isValid_iff.mpr same]), provides]
  dsimp only
  rw [succeed.2, if_neg (not_not.mpr (threadMigrateToPool_requests target thread.unit).1)]

theorem chooseXstream_of_not_accepts {xstreams : List (Xstream ι Pool)}
    (rejects : ¬ ∃ target, Accepts thread xstream target) :
    chooseXstream allocates thread (xstream :: xstreams) =
      chooseXstream allocates thread xstreams := by
  rw [chooseXstream]
  split_ifs with last stopped invalid
  · rfl
  · rfl
  · rfl
  · split
    · rfl
    · next target provides =>
        refine absurd ⟨target, ⟨last, not_not.mp stopped⟩, ?_, provides⟩ rejects
        exact isValid_iff.mp (Bool.of_not_eq_false invalid)

/-- **The search fails where no stream is accepted.** -/
theorem chooseXstream_of_forall {xstreams : List (Xstream ι Pool)}
    (rejects : ∀ xstream ∈ xstreams, ¬ ∃ target, Accepts thread xstream target) :
    chooseXstream allocates thread xstreams = (.migrationNa, thread.unit) := by
  induction xstreams with
  | nil => rfl
  | cons xstream xstreams ih =>
      rw [chooseXstream_of_not_accepts (rejects xstream List.mem_cons_self)]
      exact ih fun other member => rejects other (List.mem_cons_of_mem _ member)

theorem threadMigrate_eq (succeed : allocates.Succeed) (migratable : thread.Migratable)
    (xstreams : List (Xstream ι Pool)) :
    threadMigrate allocates xstreams thread = chooseXstream allocates thread xstreams := by
  unfold threadMigrate
  rw [if_neg (by simp [migratable.1]), if_neg (by simp [migratable.2]),
    if_neg (by simp [succeed.1])]

/-- A stream alone is accepted by the test of the search. -/
theorem threadMigrate_singleton_eq_success (succeed : allocates.Succeed)
    (migratable : thread.Migratable) :
    (threadMigrate allocates [xstream] thread).1 = .success ↔
      ∃ target, Accepts thread xstream target := by
  rw [threadMigrate_eq succeed migratable]
  constructor
  · intro success
    by_contra rejects
    rw [chooseXstream_of_not_accepts rejects] at success
    cases success
  · rintro ⟨target, accepts⟩
    rw [chooseXstream_of_accepts succeed accepts]
    exact (threadMigrateToPool_requests target thread.unit).1

omit [DecidableEq ι] [DecidableEq Pool] in
/-- No stream is accepted by both tests. -/
theorem Accepts.not_isTarget {target : Pool} (accepts : Accepts thread xstream target)
    (other : Pool) : ¬ xstream.mainSched.IsTarget thread.unit other :=
  Sched.not_isTarget_of_forall accepts.2.1

omit [DecidableEq ι] [DecidableEq Pool] in
/-- The scheduler is mixed exactly where neither test accepts it. -/
theorem mixed_iff (other : xstream.Other thread) :
    xstream.mainSched.Mixed thread.unit ↔
      (¬ ∃ target, Accepts thread xstream target) ∧
        ¬ ∃ target, xstream.mainSched.IsTarget thread.unit target := by
  constructor
  · intro mixed
    constructor
    · rintro ⟨target, accepts⟩
      obtain ⟨-, pool, member, differs⟩ := mixed ⟨target, accepts.2.2⟩
      exact differs (accepts.2.1 pool member)
    · rintro ⟨target, isTarget⟩
      obtain ⟨⟨pool, member, same⟩, -⟩ := mixed ⟨target, isTarget.2⟩
      exact isTarget.1 pool member same
  · rintro ⟨rejects, noTarget⟩ ⟨target, provides⟩
    constructor
    · by_contra none
      exact noTarget ⟨target, fun pool member same => none ⟨pool, member, same⟩, provides⟩
    · by_contra none
      refine rejects ⟨target, other, fun pool member => ?_, provides⟩
      by_contra differs
      exact none ⟨pool, member, differs⟩

/-- **`ABT_thread_migrate` finds a valid target if and only if every stream in question is
mixed.**  Then there is no valid target. -/
theorem findsTarget_iff (allocates : Allocations ι) (succeed : allocates.Succeed)
    (xstreams : List (Xstream ι Pool)) (thread : Thread ι Pool)
    (migratable : thread.Migratable) :
    FindsTarget allocates xstreams thread ↔
      ∀ xstream ∈ xstreams, xstream.Other thread → xstream.mainSched.Mixed thread.unit := by
  constructor
  · intro finds xstream member other
    rw [mixed_iff other]
    have same := finds.accepts xstream member other
    rw [threadMigrate_singleton_eq_success succeed migratable,
      threadMigrateToXstream_eq_success succeed migratable] at same
    have rejects : ¬ ∃ target, Accepts thread xstream target := by
      rintro ⟨target, accepts⟩
      obtain ⟨valid, isTarget⟩ := same.mp ⟨target, accepts⟩
      exact accepts.not_isTarget valid isTarget
    exact ⟨rejects, fun valid => rejects (same.mpr valid)⟩
  · intro mixed
    have neither xstream (member : xstream ∈ xstreams) (other : xstream.Other thread) :=
      (mixed_iff other).mp (mixed xstream member other)
    refine ⟨?_, fun _ => ?_, fun xstream member other => ?_⟩
    · rintro ⟨xstream, member, other, valid⟩
      exact absurd valid (neither xstream member other).2
    · rw [threadMigrate_eq succeed migratable]
      refine chooseXstream_of_forall fun xstream member => ?_
      rintro ⟨target, accepts⟩
      exact (neither xstream member accepts.1).1 ⟨target, accepts⟩
    · rw [threadMigrate_singleton_eq_success succeed migratable,
        threadMigrateToXstream_eq_success succeed migratable]
      obtain ⟨rejects, noTarget⟩ := neither xstream member other
      exact ⟨fun accepts => absurd accepts rejects, fun valid => absurd valid noTarget⟩

end Search

/-! ## Two streams with a pool each -/

/-- A unit in the pool of its last stream -/
def firstThread : Thread ℕ ℕ where
  typeMigratable := true
  typeMainSched := false
  lastXstream := some 0
  unit := ⟨none, fun _ => none, 0, false, some 0, none⟩

/-- A running stream with the pools of its main scheduler -/
def runningXstream (id : ℕ) (pools : List ℕ) : Xstream ℕ ℕ where
  id := id
  state := .running
  mainSched := ⟨pools, none, nofun⟩

def allSucceed : Allocations ℕ := ⟨true, fun _ => true⟩

theorem findsTarget_mixed :
    FindsTarget allSucceed [runningXstream 0 [0], runningXstream 1 [0, 1]] firstThread := by
  refine (findsTarget_iff allSucceed ⟨rfl, fun _ => rfl⟩ _ firstThread ⟨rfl, rfl⟩).mpr ?_
  intro xstream member other _
  simp only [List.mem_cons, List.not_mem_nil, or_false] at member
  rcases member with rfl | rfl
  · exact absurd rfl other.1
  · exact ⟨⟨0, by decide, rfl⟩, 1, by decide, by decide⟩

/-- The other stream has a pool of its own, and is not found. -/
theorem not_findsTarget :
    ¬ FindsTarget allSucceed [runningXstream 0 [0], runningXstream 1 [1]] firstThread := by
  intro finds
  have valid : (runningXstream 1 [1]).mainSched.IsTarget firstThread.unit 1 := by
    refine ⟨fun pool member => ?_, rfl⟩
    rw [List.mem_singleton.mp member]
    decide
  have success := (finds.found ⟨runningXstream 1 [1], by simp, ⟨by decide, rfl⟩, 1, valid⟩).1
  have fails : (threadMigrate allSucceed [runningXstream 0 [0], runningXstream 1 [1]]
      firstThread).1 = .migrationNa := by decide
  rw [fails] at success
  cases success

end ArgobotsReduction.Threads.MigrationTarget
