import Mathlib.Algebra.Order.BigOperators.Group.Finset
import ArgobotsReduction.Containers.Ledger
import ArgobotsReduction.Sync.Mutex

/-!
# The readers-writer lock

A readers-writer lock counts its readers and has a flag for its writer, both under a plain
mutex.  A caller that finds the lock held waits on a condition variable and looks again
when it is woken.  One unlock serves readers and writers: it decides by the flag, and
wakes all waiters.

The mutex is the one of `Sync.Mutex`, turn by turn.  The condition variable of a lock is
used with the mutex of the lock only, so that a wait on it does not fail.  What each
caller holds is recorded beside the lock, and no operation reads it: a caller
unlocks what it holds.

An observer says what a caller has by its calls: one more read lock after its `rdlock` has
returned, the write lock after its `wrlock` has returned, and one of them less from its unlock
on (`Grants`).  These are the locks that are excluded from each other (`Granted`).
-/

set_option autoImplicit false

namespace ArgobotsReduction.Sync.Rwlock

open Containers Parallel

universe u

/-- `ABTI_rwlock` with its condition variable.  `reads` counts the read locks of a caller, and
`writes` says whether it holds the write lock. -/
structure State (ι : Type u) where
  mutex : Mutex.State ι
  condLock : Bool
  waitlist : List ι
  readerCount : ℕ
  writeFlag : Bool
  reads : ι → ℕ
  writes : ι → Bool

/-- The two kinds of lock. -/
inductive Kind where
  | read
  | write
  deriving DecidableEq

/-- The operations on a readers-writer lock. -/
inductive Operation where
  | rdlock
  | wrlock
  | unlock
  deriving DecidableEq

/-- The places of the operations.  The places of `ABTI_cond_wait` and `ABTI_cond_broadcast` are
among them, and a place in an operation on the mutex has a place of the mutex. -/
inductive Place where
  | outside
  | locking (kind : Kind) (inner : Mutex.Place)
  | check (kind : Kind)
  | condAcquire (kind : Kind)
  | condUnlock (kind : Kind) (inner : Mutex.Place)
  | condEnqueue (kind : Kind)
  | condWaiting (kind : Kind)
  | unlockLocking (inner : Mutex.Place)
  | release
  | broadcastAcquire
  | broadcast
  | broadcastRelease
  | unlocking (inner : Mutex.Place)
  deriving DecidableEq

variable {ι : Type u}

/-- The condition of the loop in which a caller waits. -/
def Kind.blocked (s : State ι) : Kind → Bool
  | .read => s.writeFlag
  | .write => s.writeFlag || s.readerCount != 0

/-- The caller holds something. -/
def Has (s : State ι) (c : ι) : Prop := s.writes c = true ∨ 0 < s.reads c

instance (s : State ι) (c : ι) : Decidable (Has s c) :=
  inferInstanceAs (Decidable (_ ∨ _))

/-- What an unlock does to the lock. -/
def State.release (s : State ι) : State ι :=
  if s.writeFlag then { s with writeFlag := false } else { s with readerCount := s.readerCount - 1 }

variable [DecidableEq ι]

/-- A caller gets a lock of the kind. -/
def Kind.take (s : State ι) (c : ι) : Kind → State ι
  | .read => { s with
      readerCount := s.readerCount + 1
      reads := Function.update s.reads c (s.reads c + 1) }
  | .write => { s with
      writeFlag := true
      writes := Function.update s.writes c true }

/-- A caller does not hold any more what it has unlocked. -/
def State.forget (s : State ι) (c : ι) : State ι :=
  if s.writes c then { s with writes := Function.update s.writes c false }
  else { s with reads := Function.update s.reads c (s.reads c - 1) }

/-- A turn in an operation on the mutex. -/
def call (operation : Mutex.Operation) (c : ι) (s : State ι) (inside : Mutex.Place → Place)
    (after : Place) (inner : Mutex.Place) : Option (State ι × Place) :=
  (Mutex.turn false c operation s.mutex inner).map fun result =>
    ({ s with mutex := result.1 }, if result.2 = .outside then after else inside result.2)

/-- A turn in an operation.  Only a holder unlocks. -/
def turn (c : ι) (operation : Operation) (s : State ι) : Place → Option (State ι × Place)
  | .outside =>
      match operation with
      | .rdlock => some (s, .locking .read .outside)
      | .wrlock => some (s, .locking .write .outside)
      | .unlock => if Has s c then some (s, .unlockLocking .outside) else none
  | .locking kind inner => call .lock c s (.locking kind) (.check kind) inner
  | .check kind =>
      if kind.blocked s then some (s, .condAcquire kind)
      else some (kind.take s c, .unlocking .outside)
  | .condAcquire kind =>
      if s.condLock then none else some ({ s with condLock := true }, .condUnlock kind .outside)
  | .condUnlock kind inner => call .unlock c s (.condUnlock kind) (.condEnqueue kind) inner
  | .condEnqueue kind =>
      some ({ s with waitlist := s.waitlist ++ [c], condLock := false }, .condWaiting kind)
  | .condWaiting kind => if c ∈ s.waitlist then none else some (s, .locking kind .outside)
  | .unlockLocking inner => call .lock c s .unlockLocking .release inner
  | .release => some (s.release.forget c, .broadcastAcquire)
  | .broadcastAcquire =>
      if s.condLock then none else some ({ s with condLock := true }, .broadcast)
  | .broadcast =>
      match s.waitlist with
      | [] => some (s, .broadcastRelease)
      | _ :: rest => some ({ s with waitlist := rest }, .broadcast)
  | .broadcastRelease => some ({ s with condLock := false }, .unlocking .outside)
  | .unlocking inner => call .unlock c s .unlocking .outside inner

/-- Callers of a readers-writer lock. -/
def calls (ι : Type u) [DecidableEq ι] : Callers ι (State ι) Place Operation where
  turn c operation s place := turn c operation s place

omit [DecidableEq ι] in
/-- `ABT_rwlock_create` -/
def Begins (world : World ι (State ι) Place) : Prop :=
  Mutex.Begins ⟨world.shared.mutex, fun _ => .outside⟩ ∧ world.shared.condLock = false ∧
    world.shared.waitlist = [] ∧ world.shared.readerCount = 0 ∧ world.shared.writeFlag = false ∧
      (∀ c, world.shared.reads c = 0) ∧ (∀ c, world.shared.writes c = false) ∧
        ∀ c, world.place c = .outside

/-- A readers-writer lock with its callers. -/
def rwlocks (ι : Type u) [DecidableEq ι] : Machine (World ι (State ι) Place) (ι × Operation) :=
  (calls ι).machine Begins

/-! ## Readers and writers -/

/-- The lock agrees with what its callers hold. -/
structure Agrees [Fintype ι] (readerCount : ℕ) (writeFlag : Bool) (reads : ι → ℕ)
    (writes : ι → Bool) : Prop where
  count : readerCount = ∑ c, reads c
  flag : writeFlag = true ↔ ∃ c, writes c = true
  writers : ∀ c d, writes c = true → writes d = true → c = d
  apart : writeFlag = true → readerCount = 0

/-- What a lock counts and what its callers hold. -/
def State.Agrees [Fintype ι] (s : State ι) : Prop :=
  Rwlock.Agrees s.readerCount s.writeFlag s.reads s.writes

section Counts

variable [Fintype ι] {s : State ι} {c : ι}

omit [DecidableEq ι] in
/-- A reader and a writer do not hold the lock together. -/
theorem State.Agrees.reads_eq_zero {d : ι} (agrees : s.Agrees) (writer : s.writes c = true) :
    s.reads d = 0 := by
  have count := agrees.count
  rw [agrees.apart (agrees.flag.mpr ⟨c, writer⟩)] at count
  exact Finset.sum_eq_zero_iff.mp count.symm d (Finset.mem_univ d)

omit [DecidableEq ι] in
/-- **A caller that holds something holds what the flag says.** -/
theorem State.Agrees.kind (agrees : s.Agrees) (has : Has s c) :
    s.writeFlag = s.writes c ∧ (s.writes c = false → 0 < s.reads c) := by
  rcases has with writer | reader
  · exact ⟨by rw [writer, agrees.flag.mpr ⟨c, writer⟩], fun no => by simp [writer] at no⟩
  · refine ⟨?_, fun _ => reader⟩
    have noWriter : ∀ d, s.writes d = false := fun d => by
      by_contra writer
      rw [agrees.reads_eq_zero (eq_true_of_ne_false writer)] at reader
      exact Nat.lt_irrefl 0 reader
    rw [noWriter c]
    refine eq_false_of_ne_true fun flag => ?_
    obtain ⟨d, writer⟩ := agrees.flag.mp flag
    rw [noWriter d] at writer
    cases writer

/-- A caller gets a lock that is not held against it. -/
theorem State.Agrees.take {kind : Kind} (agrees : s.Agrees) (free : kind.blocked s = false) :
    (kind.take s c).Agrees := by
  cases kind with
  | read =>
      have noFlag : s.writeFlag = false := free
      refine ⟨?_, agrees.flag, agrees.writers, fun flag => ?_⟩
      · have sum := sum_update_add s.reads c (s.reads c + 1)
        have count := agrees.count
        change s.readerCount + 1 = ∑ d, Function.update s.reads c (s.reads c + 1) d
        omega
      · cases noFlag.symm.trans flag
  | write =>
      obtain ⟨noFlag, noReader⟩ : s.writeFlag = false ∧ s.readerCount = 0 := by
        simpa [Kind.blocked] using free
      have noWriter : ∀ d, s.writes d ≠ true := fun d writer => by
        cases noFlag.symm.trans (agrees.flag.mpr ⟨d, writer⟩)
      have only : ∀ d, (Kind.write.take s c).writes d = true → d = c := fun d writer => by
        by_contra different
        exact noWriter d (by simpa [Kind.take, different] using writer)
      refine ⟨agrees.count, iff_of_true rfl ⟨c, ?_⟩, fun d e first second => ?_, fun _ => noReader⟩
      · exact Function.update_self ..
      · rw [only d first, only e second]

/-- **An unlock releases the kind of lock that its caller holds.** -/
theorem State.Agrees.release (agrees : s.Agrees) (has : Has s c) :
    (s.release.forget c).Agrees := by
  obtain ⟨same, reader⟩ := agrees.kind has
  cases writer : s.writes c with
  | true =>
      rw [writer] at same
      have after : s.release.forget c =
          { s with writeFlag := false, writes := Function.update s.writes c false } := by
        simp [State.release, State.forget, same, writer]
      rw [after]
      have noWriter : ∀ d, Function.update s.writes c false d = false := fun d => by
        rcases eq_or_ne d c with rfl | different
        · simp
        · rw [Function.update_of_ne different]
          exact eq_false_of_ne_true fun other => different (agrees.writers d c other writer)
      refine ⟨agrees.count, iff_of_false nofun ?_, fun d e first => ?_, nofun⟩
      · rintro ⟨d, other⟩
        cases (noWriter d).symm.trans other
      · cases (noWriter d).symm.trans first
  | false =>
      rw [writer] at same
      have after : s.release.forget c =
          { s with
            readerCount := s.readerCount - 1
            reads := Function.update s.reads c (s.reads c - 1) } := by
        simp [State.release, State.forget, same, writer]
      rw [after]
      refine ⟨?_, agrees.flag, agrees.writers, fun flag => ?_⟩
      · have sum := sum_update_add s.reads c (s.reads c - 1)
        have count := agrees.count
        have positive := reader writer
        change s.readerCount - 1 = ∑ d, Function.update s.reads c (s.reads c - 1) d
        omega
      · cases same.symm.trans flag

end Counts

/-! ## Assertions -/

/-- The owners of the mutex, the holder of the condition variable's lock, and the caller that is
to wake the waiters. -/
structure Owners (ι : Type u) where
  mutex : Mutex.Owners ι
  cond : Option ι
  waking : Option ι

/-- The place in the mutex. -/
def Place.mutex : Place → Mutex.Place
  | .locking _ inner | .condUnlock _ inner | .unlockLocking inner | .unlocking inner => inner
  | _ => .outside

/-- The caller has locked the mutex at the place. -/
def Place.Inside : Place → Prop
  | .check _ | .condAcquire _ | .release | .broadcastAcquire | .broadcast | .broadcastRelease => True
  | .condUnlock _ inner | .unlocking inner => inner = .outside
  | _ => False

/-- The caller has the lock of the condition variable at the place. -/
def Place.HoldsCond : Place → Prop
  | .condUnlock _ _ | .condEnqueue _ | .broadcast | .broadcastRelease => True
  | _ => False

/-- The caller is to wake the waiters. -/
def Place.Wakes : Place → Prop
  | .broadcastAcquire | .broadcast => True
  | _ => False

/-- The lock is held, or its waiters are about to be woken. -/
def Busy (owners : Owners ι) (s : State ι) : Prop :=
  s.writeFlag = true ∨ s.readerCount ≠ 0 ∨ owners.waking ≠ none

/-- What a caller knows at its place. -/
def PlaceAt (owners : Owners ι) (c : ι) (s : State ι) : Place → Prop
  | .locking _ inner => inner.Locks
  | .condAcquire kind => kind.blocked s = true
  | .condUnlock _ inner => inner.Unlocks ∧ Busy owners s
  | .condEnqueue _ => Busy owners s
  | .unlockLocking inner => inner.Locks ∧ Has s c
  | .release => Has s c
  | .broadcastRelease => s.waitlist = []
  | .unlocking inner => inner.Unlocks
  | _ => True

/-- The assertion of a caller. -/
structure Local (owners : Owners ι) (c : ι) (s : State ι) (place : Place) : Prop where
  mutex : Mutex.Local false owners.mutex c s.mutex place.mutex
  inside : 0 < s.mutex.depth c ↔ place.Inside
  cond : owners.cond = some c ↔ place.HoldsCond
  waking : owners.waking = some c ↔ place.Wakes
  listed : c ∈ s.waitlist → ∃ kind, place = .condWaiting kind
  known : PlaceAt owners c s place

/-- What is shared agrees with the owners. -/
structure Global [Fintype ι] (owners : Owners ι) (s : State ι) : Prop where
  mutex : Mutex.Global false owners.mutex s.mutex
  condLock : s.condLock = owners.cond.isSome
  waking : ∀ c, owners.waking = some c → 0 < s.mutex.depth c
  waiters : s.waitlist = [] ∨ Busy owners s
  agrees : s.Agrees

/-! ## One turn -/

section Turn

variable {owners owners' : Owners ι} {c d : ι} {s s' : State ι} {place place' : Place}

omit [DecidableEq ι] in
theorem Kind.busy {kind : Kind} (blocked : kind.blocked s = true) : Busy owners s := by
  cases kind with
  | read => exact .inl blocked
  | write =>
      rcases Bool.or_eq_true_iff.mp blocked with flag | readers
      · exact .inl flag
      · exact .inr (.inl (bne_iff_ne.mp readers))

/-- What a turn of another caller leaves to a caller. -/
structure Keeps (owners owners' : Owners ι) (s s' : State ι) (d : ι) : Prop where
  mutex : Mutex.Keeps owners.mutex owners'.mutex s.mutex s'.mutex d
  cond : owners'.cond = some d ↔ owners.cond = some d
  waking : owners'.waking = some d ↔ owners.waking = some d
  listed : d ∈ s'.waitlist → d ∈ s.waitlist
  has : Has s d → Has s' d
  counts : 0 < s.mutex.depth d → s'.readerCount = s.readerCount ∧ s'.writeFlag = s.writeFlag
  busy : owners.cond = some d → Busy owners s → Busy owners' s'
  empty : owners.cond = some d → s.waitlist = [] → s'.waitlist = []

omit [DecidableEq ι] in
theorem Local.mono (keeps : Keeps owners owners' s s' d) (holds : Local owners d s place) :
    Local owners' d s' place where
  mutex := holds.mutex.mono keeps.mutex
  inside := by rw [keeps.mutex.depth, holds.inside]
  cond := keeps.cond.trans holds.cond
  waking := keeps.waking.trans holds.waking
  listed listed := holds.listed (keeps.listed listed)
  known := by
    have known := holds.known
    cases place with
    | condAcquire kind =>
        obtain ⟨readers, flag⟩ := keeps.counts (holds.inside.mpr trivial)
        have same : kind.blocked s' = kind.blocked s := by
          cases kind <;> simp [Kind.blocked, readers, flag]
        exact same.trans known
    | condUnlock kind inner => exact ⟨known.1, keeps.busy (holds.cond.mpr trivial) known.2⟩
    | condEnqueue kind => exact keeps.busy (holds.cond.mpr trivial) known
    | unlockLocking inner => exact ⟨known.1, keeps.has known.2⟩
    | release => exact keeps.has known
    | broadcastRelease => exact keeps.empty (holds.cond.mpr trivial) known
    | locking _ _ | unlocking _ => exact known
    | _ => trivial

variable [Fintype ι]

/-- What a turn has to establish. -/
def Fine (owners : Owners ι) (c : ι) (s s' : State ι) (place' : Place) : Prop :=
  ∃ owners', Global owners' s' ∧ Local owners' c s' place' ∧
    ∀ d, d ≠ c → Keeps owners owners' s s' d

omit [DecidableEq ι] [Fintype ι] in
/-- Only a caller that waits for the condition is in the waitlist. -/
theorem Local.notListed (holds : Local owners c s place)
    (elsewhere : ∀ kind, place ≠ .condWaiting kind) : c ∉ s.waitlist := by
  intro listed
  obtain ⟨kind, here⟩ := holds.listed listed
  exact elsewhere kind here

/-- A turn in the mutex. -/
theorem Local.call (holds : Local owners c s place) (fine : Global owners s)
    {operation : Mutex.Operation} {mutex : Mutex.State ι}
    (taken : Mutex.turn false c operation s.mutex place.mutex = some (mutex, place'.mutex))
    (inside : 0 < mutex.depth c ↔ place'.Inside) (cond : place'.HoldsCond ↔ place.HoldsCond)
    (waking : ¬place.Wakes) (waking' : ¬place'.Wakes) (listed : c ∉ s.waitlist)
    (known : ∀ inner, PlaceAt { owners with mutex := inner } c { s with mutex := mutex } place') :
    Fine owners c s { s with mutex := mutex } place' := by
  obtain ⟨inner, fineInner, mine, others⟩ := holds.mutex.turn fine.mutex taken
  refine ⟨{ owners with mutex := inner }, ⟨fineInner, fine.condLock, fun d wakes => ?_,
      fine.waiters, fine.agrees⟩,
    ⟨mine, inside, holds.cond.trans cond.symm, ?_, fun member => absurd member listed,
      known inner⟩,
    fun d different => ⟨others d different, .rfl, .rfl, id, id, fun _ => ⟨rfl, rfl⟩, fun _ => id,
      fun _ => id⟩⟩
  · rcases eq_or_ne d c with rfl | different
    · exact absurd (holds.waking.mp wakes) waking
    · change 0 < mutex.depth d
      rw [(others d different).depth]
      exact fine.waking d wakes
  · exact holds.waking.trans (iff_of_false waking waking')

omit [DecidableEq ι] in
/-- A turn that changes nothing that is shared. -/
theorem Local.still (holds : Local owners c s place) (fine : Global owners s)
    (mutex : place'.mutex = place.mutex) (inside : place'.Inside ↔ place.Inside)
    (cond : place'.HoldsCond ↔ place.HoldsCond) (waking : place'.Wakes ↔ place.Wakes)
    (listed : c ∉ s.waitlist) (known : PlaceAt owners c s place') :
    Fine owners c s s place' :=
  ⟨owners, fine, ⟨mutex ▸ holds.mutex, holds.inside.trans inside.symm,
      holds.cond.trans cond.symm, holds.waking.trans waking.symm,
      fun member => absurd member listed, known⟩,
    fun _ _ => ⟨.refl, .rfl, .rfl, id, id, fun _ => ⟨rfl, rfl⟩, fun _ => id, fun _ => id⟩⟩

omit [DecidableEq ι] in
/-- The caller takes the lock of the condition variable. -/
theorem Local.condAcquire (holds : Local owners c s place) (fine : Global owners s)
    (free : ¬s.condLock = true) (mutex : place'.mutex = place.mutex)
    (inside : place'.Inside ↔ place.Inside) (cond : place'.HoldsCond)
    (waking : place'.Wakes ↔ place.Wakes) (listed : c ∉ s.waitlist)
    (known : PlaceAt { owners with cond := some c } c { s with condLock := true } place') :
    Fine owners c s { s with condLock := true } place' := by
  have nobody : owners.cond = none := by simpa [fine.condLock] using free
  exact ⟨{ owners with cond := some c }, ⟨fine.mutex, rfl, fine.waking, fine.waiters, fine.agrees⟩,
    ⟨mutex ▸ holds.mutex, holds.inside.trans inside.symm, iff_of_true rfl cond,
      holds.waking.trans waking.symm, fun member => absurd member listed, known⟩,
    fun d different => ⟨.refl, by simp [nobody, different.symm], .rfl, id, id,
      fun _ => ⟨rfl, rfl⟩, fun _ => id, fun _ => id⟩⟩

omit [DecidableEq ι] in
/-- The caller releases the lock of the condition variable, where it may have got into the
waitlist. -/
theorem Local.condRelease (holds : Local owners c s place) (fine : Global owners s)
    (held : place.HoldsCond) {waitlist : List ι} (waiters : waitlist = [] ∨ Busy owners s)
    (others : ∀ d, d ≠ c → d ∈ waitlist → d ∈ s.waitlist) (mutex : place'.mutex = place.mutex)
    (inside : place'.Inside ↔ place.Inside) (cond : ¬place'.HoldsCond)
    (waking : place'.Wakes ↔ place.Wakes)
    (listed : c ∈ waitlist → ∃ kind, place' = .condWaiting kind)
    (known : PlaceAt { owners with cond := none } c
      { s with waitlist := waitlist, condLock := false } place') :
    Fine owners c s { s with waitlist := waitlist, condLock := false } place' := by
  have mine := holds.cond.mpr held
  have notTheirs : ∀ d, d ≠ c → owners.cond ≠ some d := fun d different theirs =>
    different (Option.some.inj (theirs.symm.trans mine))
  exact ⟨{ owners with cond := none }, ⟨fine.mutex, rfl, fine.waking, waiters, fine.agrees⟩,
    ⟨mutex ▸ holds.mutex, holds.inside.trans inside.symm, iff_of_false nofun cond,
      holds.waking.trans waking.symm, listed, known⟩,
    fun d different => ⟨.refl, iff_of_false nofun (notTheirs d different), .rfl,
      others d different, id, fun _ => ⟨rfl, rfl⟩,
      fun theirs => absurd theirs (notTheirs d different),
      fun theirs => absurd theirs (notTheirs d different)⟩⟩

/-- The holder of the mutex changes what the lock counts. -/
structure Recounts (s s' : State ι) (c : ι) : Prop where
  mutex : s'.mutex = s.mutex
  condLock : s'.condLock = s.condLock
  waitlist : s'.waitlist = s.waitlist
  others : ∀ d, d ≠ c → Has s d → Has s' d

omit [Fintype ι] in
theorem Kind.recounts (kind : Kind) (s : State ι) (c : ι) : Recounts s (kind.take s c) c := by
  cases kind with
  | read => exact ⟨rfl, rfl, rfl, fun d different => by simp [Has, Kind.take, different]⟩
  | write => exact ⟨rfl, rfl, rfl, fun d different => by simp [Has, Kind.take, different]⟩

omit [Fintype ι] in
theorem State.recounts_release (s : State ι) (c : ι) : Recounts s (s.release.forget c) c := by
  rw [State.release]
  split <;> rw [State.forget] <;> split <;>
    exact ⟨rfl, rfl, rfl, fun d different => by simp [Has, different]⟩

omit [DecidableEq ι] in
theorem Local.recount (holds : Local owners c s place) (fine : Global owners s)
    (recounts : Recounts s s' c) (agrees : s'.Agrees) (within : place.Inside) (waking : Option ι)
    (busy : Busy { owners with waking := waking } s') (wakes : waking = some c ↔ place'.Wakes)
    (others : ∀ d, d ≠ c → (waking = some d ↔ owners.waking = some d))
    (mutex : place'.mutex = place.mutex) (inside : place'.Inside)
    (cond : place'.HoldsCond ↔ place.HoldsCond) (listed : c ∉ s.waitlist)
    (known : PlaceAt { owners with waking := waking } c s' place') :
    Fine owners c s s' place' := by
  have depth : 0 < s.mutex.depth c := holds.inside.mpr within
  refine ⟨{ owners with waking := waking }, ⟨recounts.mutex ▸ fine.mutex,
      recounts.condLock.trans fine.condLock, fun d wakes => ?_, .inr busy, agrees⟩,
    ⟨?_, ?_, holds.cond.trans cond.symm, wakes, fun member => ?_, known⟩,
    fun d different => ⟨recounts.mutex ▸ .refl, .rfl, others d different, fun member => ?_,
      recounts.others d different, fun deep => ?_, fun _ _ => busy, fun _ empty => ?_⟩⟩
  · rw [recounts.mutex]
    rcases eq_or_ne d c with rfl | different
    · exact depth
    · exact fine.waking d ((others d different).mp wakes)
  · rw [mutex, recounts.mutex]
    exact holds.mutex
  · rw [recounts.mutex]
    exact iff_of_true depth inside
  · rw [recounts.waitlist] at member
    exact absurd member listed
  · rwa [recounts.waitlist] at member
  · exact absurd deep (fine.mutex.alone depth different)
  · rw [recounts.waitlist, empty]

/-- The caller gets the lock. -/
theorem Local.take {kind : Kind} (holds : Local owners c s (.check kind))
    (fine : Global owners s) (free : kind.blocked s = false) :
    Fine owners c s (kind.take s c) (.unlocking .outside) := by
  have notListed := holds.notListed nofun
  have busy : Busy owners (kind.take s c) := by
    cases kind with
    | read => exact .inr (.inl (Nat.succ_ne_zero _))
    | write => exact .inl rfl
  exact holds.recount fine (kind.recounts s c) (fine.agrees.take free) trivial owners.waking busy
    holds.waking (fun _ _ => .rfl) rfl rfl .rfl notListed trivial

/-- The caller releases what it holds, and is to wake the waiters. -/
theorem Local.release (holds : Local owners c s .release) (fine : Global owners s) :
    Fine owners c s (s.release.forget c) .broadcastAcquire := by
  have notListed := holds.notListed nofun
  have depth : 0 < s.mutex.depth c := holds.inside.mpr trivial
  refine holds.recount fine (s.recounts_release c) (fine.agrees.release holds.known) trivial
    (some c) (.inr (.inr nofun)) (iff_of_true rfl trivial) (fun d different => ?_) rfl trivial .rfl
    notListed trivial
  refine iff_of_false (fun same => different (Option.some.inj same).symm) fun theirs => ?_
  exact fine.mutex.alone depth different (fine.waking d theirs)

omit [DecidableEq ι] in
/-- A waiter is woken, or there is none any more. -/
theorem Local.broadcast (holds : Local owners c s .broadcast) (fine : Global owners s) :
    (s.waitlist = [] → Fine owners c s s .broadcastRelease) ∧
      ∀ first rest, s.waitlist = first :: rest →
        Fine owners c s { s with waitlist := rest } .broadcast := by
  have mine := holds.waking.mpr trivial
  have held := holds.cond.mpr trivial
  have notTheirs : ∀ d, d ≠ c → owners.cond ≠ some d := fun d different theirs =>
    different (Option.some.inj (theirs.symm.trans held))
  refine ⟨fun empty => ?_, fun first rest waitlist => ?_⟩
  · exact ⟨{ owners with waking := none }, ⟨fine.mutex, fine.condLock, nofun, .inl empty,
        fine.agrees⟩,
      ⟨holds.mutex, holds.inside, holds.cond, iff_of_false nofun id,
        fun member => by simp [empty] at member, empty⟩,
      fun d different => ⟨.refl, .rfl, by simp [mine, different.symm], id, id,
        fun _ => ⟨rfl, rfl⟩, fun theirs => absurd theirs (notTheirs d different), fun _ => id⟩⟩
  · have fewer : ∀ d, d ∈ rest → d ∈ s.waitlist := fun d member =>
      waitlist ▸ List.mem_cons_of_mem first member
    exact ⟨owners, ⟨fine.mutex, fine.condLock, fine.waking, .inr (.inr (.inr (by simp [mine]))),
        fine.agrees⟩,
      ⟨holds.mutex, holds.inside, holds.cond, holds.waking,
        fun member => holds.listed (fewer c member), trivial⟩,
      fun d different => ⟨.refl, .rfl, .rfl, fewer d, id, fun _ => ⟨rfl, rfl⟩, fun _ => id,
        fun theirs => absurd theirs (notTheirs d different)⟩⟩

omit [Fintype ι] in
theorem call_eq_some {operation : Mutex.Operation} {inside : Mutex.Place → Place} {after : Place}
    {inner : Mutex.Place} (taken : call operation c s inside after inner = some (s', place')) :
    ∃ mutex inner', Mutex.turn false c operation s.mutex inner = some (mutex, inner') ∧
      s' = { s with mutex := mutex } ∧
        place' = if inner' = .outside then after else inside inner' := by
  obtain ⟨⟨mutex, inner'⟩, ran, result⟩ := Option.map_eq_some_iff.mp taken
  cases result
  exact ⟨mutex, inner', ran, rfl, rfl⟩

omit [DecidableEq ι] [Fintype ι] in
/-- The mutex is not locked any more after a turn of its unlock. -/
theorem Local.unlocked [DecidableEq ι] {mutex : Mutex.State ι} {inner' : Mutex.Place}
    (holds : Local owners c s place) (fine : Mutex.Global false owners.mutex s.mutex)
    (inside : place.Inside ↔ place.mutex = .outside) (unlocks : place.mutex.Unlocks)
    (taken : Mutex.turn false c .unlock s.mutex place.mutex = some (mutex, inner')) :
    mutex.depth c = 0 := by
  rw [(Mutex.unlock_turn unlocks taken).2]
  split
  next => exact Nat.sub_eq_zero_of_le (fine.plain rfl c)
  next within =>
    exact Nat.eq_zero_of_not_pos fun deep => within (inside.mp (holds.inside.mp deep))

omit [DecidableEq ι] [Fintype ι] in
/-- The mutex is locked when its lock returns. -/
theorem Local.locked [DecidableEq ι] {mutex : Mutex.State ι} {inner' : Mutex.Place}
    (holds : Local owners c s place) (without : ¬place.Inside) (locks : place.mutex.Locks)
    (taken : Mutex.turn false c .lock s.mutex place.mutex = some (mutex, inner')) :
    inner'.Locks ∧ (0 < mutex.depth c ↔ inner' = .outside) := by
  have idle : s.mutex.depth c = 0 :=
    Nat.eq_zero_of_not_pos fun deep => without (holds.inside.mp deep)
  obtain ⟨still, depth⟩ := Mutex.lock_turn locks taken
  refine ⟨still, ?_⟩
  rw [depth, idle]
  split
  next returns => exact iff_of_true Nat.one_pos returns
  next goesOn => exact iff_of_false (Nat.lt_irrefl 0) goesOn

/-- **Every turn keeps the assertions.** -/
theorem Local.turn (holds : Local owners c s place) (fine : Global owners s)
    {operation : Operation} (taken : turn c operation s place = some (s', place')) :
    Fine owners c s s' place' := by
  have known := holds.known
  cases place with
  | outside =>
      have notListed := holds.notListed nofun
      cases operation with
      | rdlock | wrlock =>
          cases taken
          exact holds.still fine rfl .rfl .rfl .rfl notListed trivial
      | unlock =>
          obtain ⟨has, taken⟩ := Option.ite_none_right_eq_some.mp taken
          cases taken
          exact holds.still fine rfl .rfl .rfl .rfl notListed ⟨trivial, has⟩
  | locking kind inner =>
      have notListed := holds.notListed nofun
      obtain ⟨mutex, inner', ran, rfl, rfl⟩ := call_eq_some taken
      obtain ⟨locks, depth⟩ := holds.locked id known ran
      rcases eq_or_ne inner' .outside with rfl | inside
      · exact holds.call fine ran (iff_of_true (depth.mpr rfl) trivial) .rfl id id notListed
          fun _ => trivial
      · rw [if_neg inside]
        exact holds.call fine ran (depth.trans (iff_of_false inside id)) .rfl id id notListed
          fun _ => locks
  | check kind =>
      have notListed := holds.notListed nofun
      rw [Rwlock.turn] at taken
      split at taken
      next blocked =>
        cases taken
        exact holds.still fine rfl .rfl .rfl .rfl notListed blocked
      next free =>
        cases taken
        exact holds.take fine (eq_false_of_ne_true free)
  | condAcquire kind =>
      have notListed := holds.notListed nofun
      obtain ⟨free, taken⟩ := Option.ite_none_left_eq_some.mp taken
      cases taken
      exact holds.condAcquire fine free rfl (iff_of_true rfl trivial) trivial .rfl notListed
        ⟨trivial, kind.busy known⟩
  | condUnlock kind inner =>
      have notListed := holds.notListed nofun
      obtain ⟨mutex, inner', ran, rfl, rfl⟩ := call_eq_some taken
      have unlocks := (Mutex.unlock_turn known.1 ran).1
      have idle := holds.unlocked fine.mutex .rfl known.1 ran
      rcases eq_or_ne inner' .outside with rfl | inside
      · exact holds.call fine ran (iff_of_false (by simp [idle]) id) .rfl id id notListed
          fun _ => known.2
      · rw [if_neg inside]
        exact holds.call fine ran (iff_of_false (by simp [idle]) inside) .rfl id id notListed
          fun _ => ⟨unlocks, known.2⟩
  | condEnqueue kind =>
      cases taken
      refine holds.condRelease fine trivial (.inr known) (fun d different member => ?_) rfl .rfl id
        .rfl (fun _ => ⟨kind, rfl⟩) trivial
      simpa [different] using member
  | condWaiting kind =>
      obtain ⟨left, taken⟩ := Option.ite_none_left_eq_some.mp taken
      cases taken
      exact holds.still fine rfl .rfl .rfl .rfl left trivial
  | unlockLocking inner =>
      have notListed := holds.notListed nofun
      obtain ⟨mutex, inner', ran, rfl, rfl⟩ := call_eq_some taken
      obtain ⟨locks, depth⟩ := holds.locked id known.1 ran
      rcases eq_or_ne inner' .outside with rfl | inside
      · exact holds.call fine ran (iff_of_true (depth.mpr rfl) trivial) .rfl id id notListed
          fun _ => known.2
      · rw [if_neg inside]
        exact holds.call fine ran (depth.trans (iff_of_false inside id)) .rfl id id notListed
          fun _ => ⟨locks, known.2⟩
  | release =>
      cases taken
      exact holds.release fine
  | broadcastAcquire =>
      have notListed := holds.notListed nofun
      obtain ⟨free, taken⟩ := Option.ite_none_left_eq_some.mp taken
      cases taken
      exact holds.condAcquire fine free rfl .rfl trivial .rfl notListed trivial
  | broadcast =>
      rw [Rwlock.turn] at taken
      split at taken
      next empty =>
        cases taken
        exact (holds.broadcast fine).1 empty
      next waitlist =>
        cases taken
        exact (holds.broadcast fine).2 _ _ waitlist
  | broadcastRelease =>
      cases taken
      exact holds.condRelease fine trivial fine.waiters (fun _ _ => id) rfl
        (iff_of_true rfl trivial) id .rfl (fun member => by simpa using holds.listed member) trivial
  | unlocking inner =>
      have notListed := holds.notListed nofun
      obtain ⟨mutex, inner', ran, rfl, rfl⟩ := call_eq_some taken
      have unlocks := (Mutex.unlock_turn known ran).1
      have idle := holds.unlocked fine.mutex .rfl known ran
      rcases eq_or_ne inner' .outside with rfl | inside
      · exact holds.call fine ran (iff_of_false (by simp [idle]) id) .rfl id id notListed
          fun _ => trivial
      · rw [if_neg inside]
        exact holds.call fine ran (iff_of_false (by simp [idle]) inside) .rfl id id notListed
          fun _ => unlocks

theorem Local.of_reachable {world : World ι (State ι) Place}
    (reachable : (rwlocks ι).Reachable Machine.anyEvent world) :
    ∃ owners, Global owners world.shared ∧
      ∀ c, Local owners c world.shared (world.place c) := by
  refine Callers.invariant Global Local ?_ ?_ reachable
  · rintro world ⟨mutex, condLock, waitlist, readerCount, writeFlag, reads, writes, outside⟩
    obtain ⟨inner, fine, locals⟩ := Mutex.Local.of_begins mutex
    have noWriter : ¬∃ c, world.shared.writes c = true := by simp [writes]
    refine ⟨⟨inner, none, none⟩, ⟨fine, condLock, nofun, .inl waitlist, ?_⟩, fun c => ?_⟩
    · refine ⟨by simp [readerCount, reads], iff_of_false (by simp [writeFlag]) noWriter,
        fun c _ writer => absurd ⟨c, writer⟩ noWriter, fun _ => readerCount⟩
    · obtain ⟨-, -, -, -, -, depth, -⟩ := mutex
      have idle : ¬0 < world.shared.mutex.depth c := Nat.not_lt_of_le (depth c).le
      rw [outside c]
      exact ⟨locals c, iff_of_false idle id, iff_of_false nofun id, iff_of_false nofun id,
        fun listed => by simp [waitlist] at listed, trivial⟩
  · rintro owners world c operation shared place - fine holds taken
    obtain ⟨owners', fine', mine, others⟩ := (holds c).turn fine taken
    exact ⟨owners', fine', mine, fun d different other kept => kept.mono (others d different)⟩

end Turn

/-! ## What the lock excludes -/

/-- A writer holds the lock alone, the lock counts what is held, an unlock releases what its
caller holds, and whoever waits for a free lock is about to be woken. -/
structure Excludes [Fintype ι] (world : World ι (State ι) Place) : Prop where
  writers : ∀ c d, world.shared.writes c = true → world.shared.writes d = true → c = d
  apart : ∀ c d, world.shared.writes c = true → world.shared.reads d = 0
  count : world.shared.readerCount = ∑ c, world.shared.reads c
  flag : world.shared.writeFlag = true ↔ ∃ c, world.shared.writes c = true
  kind : ∀ c, world.place c = .release →
    world.shared.writeFlag = world.shared.writes c ∧
      (world.shared.writeFlag = false → 0 < world.shared.reads c)
  woken : world.shared.writeFlag = false → world.shared.readerCount = 0 →
    world.shared.waitlist ≠ [] → ∃ c, (world.place c).Wakes
  empties : ∀ c, world.place c = .broadcastRelease → world.shared.waitlist = []

omit [DecidableEq ι] in
theorem Excludes.of_local [Fintype ι] {owners : Owners ι} {world : World ι (State ι) Place}
    (fine : Global owners world.shared)
    (locals : ∀ c, Local owners c world.shared (world.place c)) : Excludes world where
  writers := fine.agrees.writers
  apart _ _ writer := fine.agrees.reads_eq_zero writer
  count := fine.agrees.count
  flag := fine.agrees.flag
  kind c here := by
    have known := (locals c).known
    rw [here] at known
    obtain ⟨same, reader⟩ := fine.agrees.kind known
    exact ⟨same, fun free => reader (same ▸ free)⟩
  woken noWriter noReader waiting := by
    have wakes : owners.waking ≠ none := by
      simpa [Busy, noWriter, noReader] using fine.waiters.resolve_left waiting
    obtain ⟨c, isWaking⟩ := Option.ne_none_iff_exists'.mp wakes
    exact ⟨c, (locals c).waking.mp isWaking⟩
  empties c here := by
    have known := (locals c).known
    rw [here] at known
    exact known

/-! ## Calls and returns -/

/-- What a caller has. -/
@[ext]
structure Holding where
  reads : ℕ
  writes : Bool
  deriving DecidableEq

namespace Holding

/-- What a caller has when the operation returns. -/
def grant (counts : Holding) : Operation → Holding
  | .rdlock => { counts with reads := counts.reads + 1 }
  | .wrlock => { counts with writes := true }
  | .unlock => counts

/-- What a caller has when it unlocks. -/
def unlock (counts : Holding) : Holding :=
  if counts.writes then { counts with writes := false }
  else { counts with reads := counts.reads - 1 }

end Holding

/-- What the turns have recorded of a caller. -/
def State.counts (s : State ι) (c : ι) : Holding := ⟨s.reads c, s.writes c⟩

/-- What an observer knows of a caller: its last operation, and what it has. -/
structure Grants where
  operation : Operation
  has : Holding
  deriving DecidableEq

/-- The observer that records what has been locked. -/
def grants : Observer (State ι) Place Operation Grants where
  idle place := decide (place = .outside)
  called operation grants :=
    ⟨operation, if operation = .unlock then grants.has.unlock else grants.has⟩
  sees _ _ grants := grants
  returned _ grants := { grants with has := grants.has.grant grants.operation }

/-- What an observer has recorded in a run to a state. -/
abbrev Observed (ι : Type u) [DecidableEq ι] (world : World ι (State ι) Place)
    (records : ι → Grants) : Prop :=
  (calls ι).Observed Begins grants ⟨.unlock, ⟨0, false⟩⟩ world records

/-- The lock operation of the kind. -/
def Kind.operation : Kind → Operation
  | .read => .rdlock
  | .write => .wrlock

/-- What the turns have recorded, as the observer sees it from a place. -/
def Counted (c : ι) (s : State ι) (grants : Grants) : Place → Prop
  | .outside => s.counts c = grants.has
  | .locking kind _ | .check kind | .condAcquire kind | .condUnlock kind _ | .condEnqueue kind
  | .condWaiting kind => grants.operation = kind.operation ∧ s.counts c = grants.has
  | .unlockLocking _ | .release =>
      grants.operation = .unlock ∧ (s.counts c).unlock = grants.has
  | .broadcastAcquire | .broadcast | .broadcastRelease =>
      grants.operation = .unlock ∧ s.counts c = grants.has
  | .unlocking _ => s.counts c = grants.has.grant grants.operation

section Calls

variable {c d : ι} {s s' : State ι} {place place' : Place} {record : Grants}

omit [DecidableEq ι] in
/-- An operation begins. -/
theorem Counted.call {operation : Operation} (after : place' ≠ .outside)
    (counted : Counted c s' ⟨operation, if operation = .unlock then record.has.unlock
      else record.has⟩ place') :
    Counted c s' (grants.watch operation s .outside s' place' record) place' := by
  rw [Observer.watch_call rfl (decide_eq_false after)]
  exact counted

omit [DecidableEq ι] in
/-- A turn inside an operation. -/
theorem Counted.inside {operation : Operation} (before : place ≠ .outside)
    (after : place' ≠ .outside) (counted : Counted c s' record place') :
    Counted c s' (grants.watch operation s place s' place' record) place' := by
  rw [Observer.watch_inside (decide_eq_false before) (decide_eq_false after)]
  exact counted

omit [DecidableEq ι] in
/-- The end of an operation. -/
theorem Counted.return {operation : Operation} (before : place ≠ .outside)
    (counted : s'.counts c = record.has.grant record.operation) :
    Counted c s' (grants.watch operation s place s' .outside record) .outside := by
  rw [Observer.watch_return (decide_eq_false before) rfl]
  exact counted

theorem Kind.counts_take (kind : Kind) (s : State ι) (c : ι) :
    (kind.take s c).counts c = (s.counts c).grant kind.operation := by
  cases kind <;> simp [Kind.take, State.counts, Kind.operation, Holding.grant]

theorem Kind.counts_take_of_ne (kind : Kind) (s : State ι) (different : d ≠ c) :
    (kind.take s c).counts d = s.counts d := by
  cases kind <;> simp [Kind.take, State.counts, different]

theorem State.counts_release (s : State ι) (c : ι) :
    (s.release.forget c).counts c = (s.counts c).unlock := by
  have same : s.release.reads = s.reads ∧ s.release.writes = s.writes := by
    rw [State.release]
    split <;> exact ⟨rfl, rfl⟩
  cases writer : s.writes c <;>
    simp [State.forget, State.counts, Holding.unlock, same, writer]

theorem State.counts_release_of_ne (s : State ι) (different : d ≠ c) :
    (s.release.forget c).counts d = s.counts d := by
  have same : s.release.reads = s.reads ∧ s.release.writes = s.writes := by
    rw [State.release]
    split <;> exact ⟨rfl, rfl⟩
  cases writer : s.writes c <;> simp [State.forget, State.counts, same, writer, different]

/-- **Every turn records what its caller gets.** -/
theorem Counted.turn {operation : Operation} (counted : Counted c s record place)
    (taken : turn c operation s place = some (s', place')) :
    Counted c s' (grants.watch operation s place s' place' record) place' := by
  cases place with
  | outside =>
      have counted : s.counts c = record.has := counted
      cases operation with
      | rdlock | wrlock =>
          cases taken
          exact .call nofun ⟨rfl, counted⟩
      | unlock =>
          obtain ⟨-, taken⟩ := Option.ite_none_right_eq_some.mp taken
          cases taken
          exact .call nofun ⟨rfl, congrArg Holding.unlock counted⟩
  | locking kind inner | unlockLocking inner =>
      obtain ⟨mutex, inner', -, rfl, rfl⟩ := call_eq_some taken
      split
      · exact .inside nofun nofun counted
      · exact .inside nofun nofun counted
  | check kind =>
      obtain ⟨asked, counted⟩ := counted
      rw [Rwlock.turn] at taken
      split at taken <;> cases taken
      · exact .inside nofun nofun ⟨asked, counted⟩
      · refine .inside nofun nofun ?_
        change _ = _
        rw [kind.counts_take, counted, asked]
  | condAcquire kind | condWaiting kind =>
      obtain ⟨-, taken⟩ := Option.ite_none_left_eq_some.mp taken
      cases taken
      exact .inside nofun nofun counted
  | condUnlock kind inner =>
      obtain ⟨mutex, inner', -, rfl, rfl⟩ := call_eq_some taken
      split
      · exact .inside nofun nofun counted
      · exact .inside nofun nofun counted
  | condEnqueue kind =>
      cases taken
      exact .inside nofun nofun counted
  | release =>
      cases taken
      exact .inside nofun nofun ⟨counted.1, (s.counts_release c).trans counted.2⟩
  | broadcastAcquire =>
      obtain ⟨-, taken⟩ := Option.ite_none_left_eq_some.mp taken
      cases taken
      exact .inside nofun nofun counted
  | broadcast =>
      rw [Rwlock.turn] at taken
      split at taken <;> cases taken <;> exact .inside nofun nofun counted
  | broadcastRelease =>
      cases taken
      refine .inside nofun nofun ?_
      change _ = _
      rw [counted.1]
      exact counted.2
  | unlocking inner =>
      obtain ⟨mutex, inner', -, rfl, rfl⟩ := call_eq_some taken
      split
      · exact .return nofun counted
      · exact .inside nofun nofun counted

/-- A turn leaves what other callers have. -/
theorem counts_turn_of_ne {operation : Operation} (different : d ≠ c)
    (taken : turn c operation s place = some (s', place')) : s'.counts d = s.counts d := by
  cases place with
  | outside =>
      cases operation with
      | rdlock | wrlock =>
          cases taken
          rfl
      | unlock =>
          obtain ⟨-, taken⟩ := Option.ite_none_right_eq_some.mp taken
          cases taken
          rfl
  | locking | condUnlock | unlockLocking | unlocking =>
      obtain ⟨mutex, inner', -, rfl, -⟩ := call_eq_some taken
      rfl
  | check kind =>
      rw [Rwlock.turn] at taken
      split at taken <;> cases taken
      · rfl
      · exact kind.counts_take_of_ne s different
  | condAcquire | condWaiting | broadcastAcquire =>
      obtain ⟨-, taken⟩ := Option.ite_none_left_eq_some.mp taken
      cases taken
      rfl
  | condEnqueue | broadcastRelease =>
      cases taken
      rfl
  | release =>
      cases taken
      exact s.counts_release_of_ne different
  | broadcast =>
      rw [Rwlock.turn] at taken
      split at taken <;> cases taken <;> rfl

omit [DecidableEq ι] in
theorem Counted.congr (same : s'.counts d = s.counts d) (counted : Counted d s record place) :
    Counted d s' record place := by
  cases place <;> simpa only [Counted, same] using counted

theorem Counted.of_observed {world : World ι (State ι) Place} {records : ι → Grants}
    (seen : Observed ι world records) (c : ι) :
    Counted c world.shared (records c) (world.place c) := by
  refine seen.holds Counted ?_ ?_ ?_ c
  · rintro world ⟨-, -, -, -, -, reads, writes, outside⟩ c
    rw [outside c]
    exact Holding.ext (reads c) (writes c)
  · exact fun world c operation shared place record _ taken counted => counted.turn taken
  · exact fun world c operation shared place d record different _ taken counted =>
      counted.congr (counts_turn_of_ne different taken)

omit [DecidableEq ι] in
/-- A caller has no more than the turns have recorded. -/
theorem Counted.le (counted : Counted c s record place) :
    record.has.reads ≤ s.reads c ∧ (record.has.writes = true → s.writes c = true) := by
  have same : s.counts c = record.has →
      record.has.reads ≤ s.reads c ∧ (record.has.writes = true → s.writes c = true) := by
    intro same
    rw [← same]
    exact ⟨le_rfl, id⟩
  have unlocked : (s.counts c).unlock = record.has →
      record.has.reads ≤ s.reads c ∧ (record.has.writes = true → s.writes c = true) := by
    intro same
    rw [← same, Holding.unlock]
    split
    · exact ⟨le_rfl, nofun⟩
    · exact ⟨Nat.sub_le _ _, id⟩
  cases place with
  | outside => exact same counted
  | locking | check | condAcquire | condUnlock | condEnqueue | condWaiting | broadcastAcquire
  | broadcast | broadcastRelease => exact same counted.2
  | unlockLocking | release => exact unlocked counted.2
  | unlocking =>
      have granted : s.counts c = record.has.grant record.operation := counted
      have reads : s.reads c = _ := congrArg Holding.reads granted
      have writes : s.writes c = _ := congrArg Holding.writes granted
      rw [reads, writes]
      cases record.operation <;> simp [Holding.grant]

end Calls

/-- By its calls a writer has the lock alone, and outside the operations a caller has what the
lock has counted. -/
structure Granted (world : World ι (State ι) Place) (records : ι → Grants) : Prop where
  writers : ∀ c d, (records c).has.writes = true → (records d).has.writes = true → c = d
  apart : ∀ c d, (records c).has.writes = true → (records d).has.reads = 0
  flag : ∀ c, (records c).has.writes = true → world.shared.writeFlag = true
  has : ∀ c, world.place c = .outside →
    world.shared.reads c = (records c).has.reads ∧ world.shared.writes c = (records c).has.writes

omit [DecidableEq ι] in
theorem Granted.of_counted [Fintype ι] {world : World ι (State ι) Place} {records : ι → Grants}
    (excludes : Excludes world)
    (counted : ∀ c, Counted c world.shared (records c) (world.place c)) :
    Granted world records where
  writers c d mine theirs :=
    excludes.writers c d ((counted c).le.2 mine) ((counted d).le.2 theirs)
  apart c d mine :=
    Nat.eq_zero_of_le_zero (excludes.apart c d ((counted c).le.2 mine) ▸ (counted d).le.1)
  flag c mine := excludes.flag.mpr ⟨c, (counted c).le.2 mine⟩
  has c here := by
    have same := counted c
    rw [here] at same
    exact ⟨congrArg Holding.reads same, congrArg Holding.writes same⟩

/-- **The readers-writer lock excludes correctly**, and so do the locks that callers have by their
calls. -/
theorem rwlock_excludes {ι : Type u} [DecidableEq ι] [Fintype ι] {world : World ι (State ι) Place}
    (reachable : (rwlocks ι).Reachable Machine.anyEvent world) :
    Excludes world ∧ (∃ records, Observed ι world records) ∧
      ∀ records, Observed ι world records → Granted world records := by
  obtain ⟨owners, fine, locals⟩ := Local.of_reachable reachable
  have excludes := Excludes.of_local fine locals
  exact ⟨excludes, Callers.exists_observed _ _ reachable,
    fun _ seen => .of_counted excludes (Counted.of_observed seen)⟩

def twoOutside : World (Fin 2) (State (Fin 2)) Place where
  shared :=
    ⟨⟨false, false, [], 0, none, fun _ => 0⟩, false, [], 0, false, fun _ => 0, fun _ => false⟩
  place _ := .outside

/-- A reader holds the lock while a writer waits, and is about to unlock it. -/
theorem rwlock_excludes_two :
    ∃ world : World (Fin 2) (State (Fin 2)) Place, Excludes world ∧
      world.place 0 = .release ∧ world.place 1 = .condWaiting .write ∧
        world.shared.readerCount = 1 := by
  obtain ⟨world, reachable, places⟩ := Machine.exists_reachable_of_play Machine.anyEvent
    (M := rwlocks (Fin 2)) (s := twoOutside)
    ⟨⟨rfl, rfl, rfl, rfl, rfl, fun _ => rfl, fun _ => rfl⟩, rfl, rfl, rfl, rfl, fun _ => rfl,
      fun _ => rfl, fun _ => rfl⟩
    (List.replicate 10 (0, .rdlock) ++ List.replicate 12 (1, .wrlock) ++
      List.replicate 4 (0, .unlock))
    (fun world => world.place 0 = .release ∧ world.place 1 = .condWaiting .write ∧
      world.shared.readerCount = 1) (by decide)
  exact ⟨world, (rwlock_excludes reachable).1, of_decide_eq_true places⟩

end ArgobotsReduction.Sync.Rwlock
