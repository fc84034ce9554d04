import Mathlib.Data.Fintype.Basic
import ArgobotsReduction.Parallel.Machine

/-!
# Migration requests

`thread_migrate_to_pool` records a pool in the migration record of a work unit and
sets its request, and the unit handles the request when it is scheduled or
yields.  The record is created on first use: `ABTI_thread_get_mig_data` looks it
up in the key table, and stores a new one when there is none.

Any number of requesters and the handler of the unit take turns.  A turn is one
access to the key table, to the migration pool, or to the request.

Between the moment the handler has read the migration pool and the moment it
clears the request, another request may come and go, and is lost
(`not_migration_kept`).  Two requesters that both find no record store one each,
and the second record hides what the first requester writes.  In the runs
without these two overlaps no request is lost (`migration_kept`).
-/

set_option autoImplicit false

namespace ArgobotsReduction.Threads.Migration

open Parallel

universe u v w

variable {ι : Type u} {Pool : Type v}

/-- What the requesters and the handler share: the record in the key table of the
unit, the migration pools of the records that have been allocated, the MIGRATE
bit, the associated pool of the unit, and the pool of the request that was
recorded last.  A pool is `none` when it is NULL. -/
structure WorkUnit (Pool : Type v) where
  migData : Option ℕ
  migrationPool : ℕ → Option Pool
  records : ℕ
  reqMigrate : Bool
  pool : Option Pool
  lastRequest : Option Pool

/-- The places of `thread_migrate_to_pool`. -/
inductive Requester where
  | begin
  | setData (record : ℕ)
  | storePool (record : ℕ)
  | setRequest
  | done
  deriving DecidableEq

/-- The places of `ABTI_thread_handle_request` and
`ABTI_thread_handle_request_migrate`. -/
inductive Handler (Pool : Type v) where
  | idle
  | getData
  | setData (record : ℕ)
  | loadPool (record : ℕ)
  | associate (pool : Option Pool)
  | callback (pool : Option Pool)
  | unset (pool : Option Pool)
  deriving DecidableEq

namespace WorkUnit

/-- The pool in the record of the key table. -/
def recordedPool (unit : WorkUnit Pool) : Option Pool := unit.migData.bind unit.migrationPool

/-- `ABTU_calloc` of a record, whose pool is NULL. -/
def calloc (unit : WorkUnit Pool) : WorkUnit Pool :=
  { unit with
    migrationPool := Function.update unit.migrationPool unit.records none
    records := unit.records + 1 }

/-- The look-up of `ABTI_thread_get_mig_data`: it leads to the record that is found,
or else to a new one that has still to be stored. -/
def getMigData {Place : Type w} (found new : ℕ → Place) (unit : WorkUnit Pool) :
    WorkUnit Pool × Place :=
  match unit.migData with
  | some record => (unit, found record)
  | none => (unit.calloc, new unit.records)

/-- `ABTI_ktable_set` -/
def setMigData (record : ℕ) (unit : WorkUnit Pool) : WorkUnit Pool :=
  { unit with migData := some record }

end WorkUnit

/-- A turn of `thread_migrate_to_pool`. -/
def threadMigrateToPool (pool : Pool) (unit : WorkUnit Pool) :
    Requester → Option (WorkUnit Pool × Requester)
  | .begin => some (unit.getMigData .storePool .setData)
  | .setData record => some (unit.setMigData record, .storePool record)
  | .storePool record =>
      some ({ unit with
        migrationPool := Function.update unit.migrationPool record (some pool)
        lastRequest := some pool }, .setRequest)
  | .setRequest => some ({ unit with reqMigrate := true }, .done)
  | .done => none

/-- A turn of the handler.  The flag says whether `ABTI_thread_set_associated_pool`
succeeds; if it fails the request stays set. -/
def handleRequest (succeeds : Bool) (unit : WorkUnit Pool) :
    Handler Pool → WorkUnit Pool × Handler Pool
  | .idle => (unit, if unit.reqMigrate then .getData else .idle)
  | .getData => unit.getMigData .loadPool .setData
  | .setData record => (unit.setMigData record, .loadPool record)
  | .loadPool record => (unit, .associate (unit.migrationPool record))
  | .associate pool =>
      if succeeds then ({ unit with pool := pool }, .callback pool) else (unit, .idle)
  | .callback pool => (unit, .unset pool)
  | .unset _ => ({ unit with reqMigrate := false }, .idle)

/-- The work unit, its requesters and its handler. -/
structure State (ι : Type u) (Pool : Type v) where
  unit : WorkUnit Pool
  requester : ι → Requester
  handler : Handler Pool

/-- Whose turn it is. -/
inductive Event (ι : Type u) where
  | request (i : ι)
  | handle (succeeds : Bool)

def step [DecidableEq ι] (target : ι → Pool) (s : State ι Pool) : Event ι → Option (State ι Pool)
  | .request i =>
      (threadMigrateToPool (target i) s.unit (s.requester i)).map fun result =>
        { s with unit := result.1, requester := Function.update s.requester i result.2 }
  | .handle succeeds =>
      some { s with
        unit := (handleRequest succeeds s.unit s.handler).1
        handler := (handleRequest succeeds s.unit s.handler).2 }

/-- The requests to one unit.  It may start with a record, and is associated with a
pool. -/
def migrations [DecidableEq ι] (target : ι → Pool) : Machine (State ι Pool) (Event ι) where
  init s := s.unit.reqMigrate = false ∧ s.unit.pool ≠ none ∧ s.unit.lastRequest = none ∧
    (∀ i, s.requester i = .begin) ∧ s.handler = .idle
  step := step target

/-! ## What has to hold -/

/-- The requester is between its look-up of the record and its request. -/
def Requester.InProgress (place : Requester) : Prop := place ≠ .begin ∧ place ≠ .done

instance (place : Requester) : Decidable place.InProgress := inferInstanceAs (Decidable (_ ∧ _))

/-- No requester and no handler is in progress. -/
def Quiescent (s : State ι Pool) : Prop :=
  (∀ i, ¬(s.requester i).InProgress) ∧ s.handler = .idle

instance [Fintype ι] [DecidableEq Pool] (s : State ι Pool) : Decidable (Quiescent s) :=
  inferInstanceAs (Decidable (_ ∧ _))

/-- The last request is still set, or has been granted. -/
def LastKept (s : State ι Pool) : Prop :=
  ∀ pool, s.unit.lastRequest = some pool →
    s.unit.reqMigrate = true ∧ s.unit.recordedPool = some pool ∨ s.unit.pool = some pool

/-- The unit is in a pool, and no request is lost. -/
structure Kept (s : State ι Pool) : Prop where
  pool : s.unit.pool ≠ none
  last : Quiescent s → LastKept s

/-- A new record is stored only if there is none. -/
def Requester.Undisturbed (unit : WorkUnit Pool) : Requester → Prop
  | .setData _ => unit.migData = none
  | _ => True

instance (unit : WorkUnit Pool) (place : Requester) : Decidable (place.Undisturbed unit) := by
  cases place <;> unfold Requester.Undisturbed <;> infer_instance

/-- A new record is stored only if there is none, and the request is cleared only if
the recorded pool is still the one that was read, or a requester is in progress. -/
def Handler.Undisturbed (s : State ι Pool) : Handler Pool → Prop
  | .setData _ => s.unit.migData = none
  | .unset pool => s.unit.recordedPool = pool ∨ ∃ i, (s.requester i).InProgress
  | _ => True

instance [Fintype ι] [DecidableEq Pool] (s : State ι Pool) (place : Handler Pool) :
    Decidable (place.Undisturbed s) := by
  cases place <;> unfold Handler.Undisturbed <;> infer_instance

/-- The turn does not overlap with another one in a way that loses a request. -/
def Undisturbed (s : State ι Pool) : Event ι → Prop
  | .request i => (s.requester i).Undisturbed s.unit
  | .handle _ => s.handler.Undisturbed s

instance [Fintype ι] [DecidableEq Pool] (s : State ι Pool) (event : Event ι) :
    Decidable (Undisturbed s event) := by
  cases event <;> unfold Undisturbed <;> infer_instance

/-! ## Runs without overlaps -/

namespace WorkUnit

variable {unit : WorkUnit Pool} {record : ℕ}

theorem recordedPool_of_some (found : unit.migData = some record) :
    unit.recordedPool = unit.migrationPool record := by
  rw [recordedPool, found, Option.bind_some]

theorem getMigData_of_some {Place : Type w} (found new : ℕ → Place)
    (present : unit.migData = some record) : unit.getMigData found new = (unit, found record) := by
  simp only [getMigData, present]

theorem getMigData_of_none {Place : Type w} (found new : ℕ → Place)
    (absent : unit.migData = none) :
    unit.getMigData found new = (unit.calloc, new unit.records) := by
  simp only [getMigData, absent]

theorem recordedPool_of_none (absent : unit.migData = none) : unit.recordedPool = none := by
  rw [recordedPool, absent, Option.bind_none]

end WorkUnit

/-- What a requester knows at its place. -/
def RequesterAt (unit : WorkUnit Pool) : Requester → Prop
  | .storePool record => unit.migData = some record
  | .setRequest => unit.recordedPool ≠ none
  | _ => True

/-- What the handler knows at its place. -/
def HandlerAt (unit : WorkUnit Pool) : Handler Pool → Prop
  | .idle => True
  | .getData => unit.reqMigrate = true
  | .setData _ => False
  | .loadPool record => unit.reqMigrate = true ∧ unit.migData = some record
  | .associate pool => unit.reqMigrate = true ∧ pool ≠ none
  | .callback pool | .unset pool => unit.reqMigrate = true ∧ unit.pool = pool

/-- The invariant of the runs without overlaps. -/
structure Sound (s : State ι Pool) : Prop where
  pool : s.unit.pool ≠ none
  pending : s.unit.reqMigrate = true → s.unit.recordedPool ≠ none
  last : ∀ pool, s.unit.lastRequest = some pool → s.unit.recordedPool = some pool
  granted : s.unit.reqMigrate = false → (∃ i, (s.requester i).InProgress) ∨
    ∀ pool, s.unit.lastRequest = some pool → s.unit.pool = some pool
  requester : ∀ i, RequesterAt s.unit (s.requester i)
  handler : HandlerAt s.unit s.handler

theorem Sound.kept {s : State ι Pool} (sound : Sound s) : Kept s where
  pool := sound.pool
  last := by
    rintro ⟨quiet, -⟩ pool last
    cases request : s.unit.reqMigrate with
    | true => exact .inl ⟨rfl, sound.last pool last⟩
    | false =>
        rcases sound.granted request with ⟨i, busy⟩ | granted
        · exact absurd busy (quiet i)
        · exact .inr (granted pool last)

/-- What one party changes in the unit keeps what the others know. -/
structure Extends (unit later : WorkUnit Pool) : Prop where
  migData : ∀ record, unit.migData = some record → later.migData = some record
  recordedPool : unit.recordedPool ≠ none → later.recordedPool ≠ none

theorem RequesterAt.mono {unit later : WorkUnit Pool} (extend : Extends unit later)
    {place : Requester} (known : RequesterAt unit place) : RequesterAt later place := by
  cases place with
  | storePool record => exact extend.migData record known
  | setRequest => exact extend.recordedPool known
  | begin | setData _ | done => trivial

theorem HandlerAt.mono {unit later : WorkUnit Pool} (extend : Extends unit later)
    (request : unit.reqMigrate = true → later.reqMigrate = true) (pool : later.pool = unit.pool)
    {place : Handler Pool} (known : HandlerAt unit place) : HandlerAt later place := by
  cases place with
  | idle => trivial
  | getData => exact request known
  | setData record => exact known
  | loadPool record => exact ⟨request known.1, extend.migData record known.2⟩
  | associate p => exact ⟨request known.1, known.2⟩
  | callback p | unset p => exact ⟨request known.1, pool.trans known.2⟩

/-- Changes that keep the record and the migration pools. -/
theorem Extends.of_same {unit later : WorkUnit Pool} (migData : later.migData = unit.migData)
    (migrationPool : later.migrationPool = unit.migrationPool) : Extends unit later where
  migData := fun record found => migData.trans found
  recordedPool := by simp only [WorkUnit.recordedPool, migData, migrationPool, imp_self]

/-- With no record in the key table nothing is known that a change could break. -/
theorem Extends.of_none {unit later : WorkUnit Pool} (absent : unit.migData = none) :
    Extends unit later where
  migData := fun record found => by simp [absent] at found
  recordedPool := fun recorded => absurd (WorkUnit.recordedPool_of_none absent) recorded

section Request

variable {s : State ι Pool} [DecidableEq ι] {i : ι}

/-- A requester that moves to a place in progress, without a change of the pool or of
the request. -/
theorem Sound.advance (sound : Sound s) {unit : WorkUnit Pool} {place : Requester}
    (extend : Extends s.unit unit) (request : unit.reqMigrate = s.unit.reqMigrate)
    (pool : unit.pool = s.unit.pool) (busy : place.InProgress) (known : RequesterAt unit place)
    (last : ∀ pool, unit.lastRequest = some pool → unit.recordedPool = some pool) :
    Sound { s with unit := unit, requester := Function.update s.requester i place } where
  pool := by simpa only [pool] using sound.pool
  pending := fun set => extend.recordedPool (sound.pending (request.symm.trans set))
  last := last
  granted := fun _ => .inl ⟨i, by simpa only [Function.update_self] using busy⟩
  requester := by
    intro j
    rcases eq_or_ne j i with rfl | different
    · simpa only [Function.update_self] using known
    · simpa only [Function.update_of_ne different] using (sound.requester j).mono extend
  handler := sound.handler.mono extend (fun set => request.trans set) pool

theorem Sound.request (sound : Sound s) {target : Pool} {unit : WorkUnit Pool} {place : Requester}
    (undisturbed : Undisturbed s (.request i))
    (moved : threadMigrateToPool target s.unit (s.requester i) = some (unit, place)) :
    Sound { s with unit := unit, requester := Function.update s.requester i place } := by
  have known := sound.requester i
  cases here : s.requester i with
  | begin =>
      rw [here, threadMigrateToPool] at moved
      cases found : s.unit.migData with
      | some record =>
          rw [WorkUnit.getMigData_of_some _ _ found] at moved
          obtain ⟨rfl, rfl⟩ := Prod.mk.inj (Option.some.inj moved)
          exact sound.advance (.of_same rfl rfl) rfl rfl ⟨nofun, nofun⟩ found sound.last
      | none =>
          rw [WorkUnit.getMigData_of_none _ _ found] at moved
          obtain ⟨rfl, rfl⟩ := Prod.mk.inj (Option.some.inj moved)
          refine sound.advance (.of_none found) rfl rfl ⟨nofun, nofun⟩ trivial fun p last => ?_
          have recorded := sound.last p last
          rw [WorkUnit.recordedPool_of_none found] at recorded
          cases recorded
  | setData record =>
      rw [here] at moved
      obtain ⟨rfl, rfl⟩ := Prod.mk.inj (Option.some.inj moved)
      have absent : s.unit.migData = none := by
        rw [Undisturbed, here] at undisturbed
        exact undisturbed
      refine sound.advance (.of_none absent) rfl rfl ⟨nofun, nofun⟩ rfl fun p last => ?_
      have recorded := sound.last p last
      rw [WorkUnit.recordedPool_of_none absent] at recorded
      cases recorded
  | storePool record =>
      rw [here] at moved known
      obtain ⟨rfl, rfl⟩ := Prod.mk.inj (Option.some.inj moved)
      have stored : WorkUnit.recordedPool { s.unit with
          migrationPool := Function.update s.unit.migrationPool record (some target)
          lastRequest := some target } = some target := by
        simp [WorkUnit.recordedPool, show s.unit.migData = some record from known]
      refine sound.advance ⟨fun _ found => found, fun _ => by simp [stored]⟩ rfl rfl
        ⟨nofun, nofun⟩ (by simp [RequesterAt, stored]) fun p last => ?_
      rw [stored]
      exact last
  | setRequest =>
      rw [here] at moved known
      obtain ⟨rfl, rfl⟩ := Prod.mk.inj (Option.some.inj moved)
      have extend : Extends s.unit { s.unit with reqMigrate := true } := .of_same rfl rfl
      refine ⟨sound.pool, fun _ => known, sound.last, fun clear => by simp at clear, fun j => ?_,
        sound.handler.mono extend (fun _ => rfl) rfl⟩
      rcases eq_or_ne j i with rfl | different
      · simp [RequesterAt]
      · simpa only [Function.update_of_ne different] using (sound.requester j).mono extend
  | done =>
      rw [here] at moved
      cases moved

end Request

section Handle

variable {s : State ι Pool}

/-- The handler moves on without a change. -/
theorem Sound.handlerTo (sound : Sound s) {place : Handler Pool} (known : HandlerAt s.unit place) :
    Sound { s with handler := place } :=
  ⟨sound.pool, sound.pending, sound.last, sound.granted, sound.requester, known⟩

theorem Sound.handle (sound : Sound s) (succeeds : Bool)
    (undisturbed : Undisturbed s (.handle succeeds)) :
    Sound { s with
      unit := (handleRequest succeeds s.unit s.handler).1
      handler := (handleRequest succeeds s.unit s.handler).2 } := by
  have known := sound.handler
  cases here : s.handler with
  | idle =>
      refine sound.handlerTo ?_
      rw [handleRequest]
      split
      next request => exact request
      next => trivial
  | getData =>
      rw [here] at known
      cases found : s.unit.migData with
      | some record =>
          rw [handleRequest, WorkUnit.getMigData_of_some _ _ found]
          exact sound.handlerTo ⟨known, found⟩
      | none => exact absurd (WorkUnit.recordedPool_of_none found) (sound.pending known)
  | setData record =>
      rw [here] at known
      exact known.elim
  | loadPool record =>
      rw [here] at known
      refine sound.handlerTo ⟨known.1, ?_⟩
      rw [← WorkUnit.recordedPool_of_some known.2]
      exact sound.pending known.1
  | associate p =>
      rw [here] at known
      cases succeeds with
      | false => exact sound.handlerTo trivial
      | true =>
          refine ⟨known.2, sound.pending, sound.last, fun clear => ?_, fun j =>
            (sound.requester j).mono (.of_same rfl rfl), known.1, rfl⟩
          exact absurd (clear.symm.trans known.1) (by simp)
  | callback p =>
      rw [here] at known
      exact sound.handlerTo known
  | unset p =>
      rw [here] at known
      refine ⟨sound.pool, fun set => by simp [handleRequest] at set, sound.last, fun _ => ?_,
        fun j => (sound.requester j).mono (.of_same rfl rfl), trivial⟩
      have unchanged : s.unit.recordedPool = p ∨ ∃ i, (s.requester i).InProgress := by
        rw [Undisturbed, here] at undisturbed
        exact undisturbed
      refine unchanged.symm.imp_right fun same last recorded => ?_
      exact known.2.trans (same.symm.trans (sound.last last recorded))

end Handle

variable [DecidableEq ι]

theorem Sound.of_reachable {target : ι → Pool} {s : State ι Pool}
    (reachable : (migrations target).Reachable Undisturbed s) : Sound s := by
  refine Machine.invariant Sound ?_ ?_ reachable
  · rintro s ⟨clear, pool, none, begins, idle⟩
    refine ⟨pool, fun set => by simp [clear] at set, fun p last => by simp [none] at last,
      fun _ => .inr fun p last => by simp [none] at last, fun i => ?_, ?_⟩
    · rw [begins i]
      trivial
    · rw [idle]
      trivial
  · rintro s (i | succeeds) t - undisturbed sound moved
    · obtain ⟨⟨unit, place⟩, taken, rfl⟩ := Option.map_eq_some_iff.mp moved
      exact sound.request undisturbed taken
    · cases moved
      exact sound.handle succeeds undisturbed

/-- **No request is lost without an overlap.**  In every run in which new records are
stored only where there is none, and requests are cleared only when no other has
been recorded meanwhile or one is still in progress, the unit is never associated
with a NULL pool, and the last request is set or granted whenever nobody is in
progress. -/
theorem migration_kept (target : ι → Pool) (s : State ι Pool)
    (reachable : (migrations target).Reachable Undisturbed s) : Kept s :=
  (Sound.of_reachable reachable).kept

/-- A unit in pool 0, and two requesters. -/
def twoRequesters (migData : Option ℕ) : State Bool ℕ where
  unit :=
    { migData := migData, migrationPool := fun _ => none, records := 1, reqMigrate := false,
      pool := some 0, lastRequest := none }
  requester _ := .begin
  handler := .idle

/-- One requester asks for pool 1, the other for pool 2. -/
def twoPools (i : Bool) : ℕ := if i then 2 else 1

theorem init_twoRequesters (migData : Option ℕ) :
    (migrations twoPools).init (twoRequesters migData) :=
  ⟨rfl, nofun, rfl, fun _ => rfl, rfl⟩

/-- A request that is made and granted. -/
theorem migration_kept_twoRequesters : ∃ s : State Bool ℕ, Kept s ∧ s.unit.pool = some 1 := by
  obtain ⟨s, reachable, granted⟩ := Machine.exists_reachable_of_play Undisturbed
    (init_twoRequesters none)
    [.request false, .request false, .request false, .request false, .handle true, .handle true,
      .handle true, .handle true, .handle true, .handle true]
    (fun s => s.unit.pool = some 1) (by decide)
  exact ⟨s, migration_kept twoPools s reachable, by simpa using granted⟩

/-- Without a record, a second new record without a pool hides the first one from the
handler.  With a record, a request made between the read of the pool and the clearing
of the first request is lost. -/
theorem not_migration_kept :
    (¬ ∀ s, (migrations twoPools).Reachable Machine.anyEvent s → s.unit.pool ≠ none) ∧
      ¬ ∀ s, (migrations twoPools).Reachable Machine.anyEvent s → Quiescent s → LastKept s := by
  constructor
  · intro always
    obtain ⟨s, reachable, null⟩ := Machine.exists_reachable_of_play Machine.anyEvent
      (init_twoRequesters none)
      [.request false, .request true, .request false, .request false, .request false,
        .request true, .handle true, .handle true, .handle true, .handle true]
      (fun s => s.unit.pool = none) (by decide)
    exact always s reachable (by simpa using null)
  · intro always
    obtain ⟨s, reachable, lost⟩ := Machine.exists_reachable_of_play Machine.anyEvent
      (init_twoRequesters (some 0))
      [.request false, .request false, .request false, .handle true, .handle true, .handle true,
        .request true, .request true, .request true, .handle true, .handle true, .handle true]
      (fun s => Quiescent s ∧ s.unit.lastRequest = some 2 ∧ s.unit.reqMigrate = false ∧
        s.unit.pool = some 1) (by decide)
    obtain ⟨quiet, last, clear, pool⟩ := by simpa using lost
    rcases always s reachable quiet 2 last with ⟨set, -⟩ | granted
    · simp [clear] at set
    · simp [pool] at granted

end ArgobotsReduction.Threads.Migration
