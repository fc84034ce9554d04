import Mathlib.Logic.Function.Basic
import ArgobotsReduction.Parallel.Observers

/-!
# The mutex

A caller takes the lock of a mutex by a test-and-set, and when that fails it tries once
more under the lock of the waitlist before it waits.  An unlock releases the lock and
wakes all waiters under the lock of the waitlist.  A recursive mutex records its owner
and counts how often it has been locked by it.

The waitlist is the queue of its waiters (`Waitlist.WellFormed`), and a caller that
waits is woken when it is in it no more.  An identifier of the owner stands for its
caller, and the identifier 0 for nobody.

An observer of the calls says how often a caller has the mutex: once more after a lock, a
spinlock or a successful trylock has returned, and once less from its unlock on (`Locks`).
Outside the operations this is the depth that the turns have counted.
-/

set_option autoImplicit false

namespace ArgobotsReduction.Sync.Mutex

open Parallel

universe u

/-- `ABTI_mutex`.  `depth` is how often a caller has locked the mutex. -/
structure State (ι : Type u) where
  lock : Bool
  waiterLock : Bool
  waitlist : List ι
  nestingCnt : ℕ
  ownerId : Option ι
  depth : ι → ℕ

/-- The operations on a mutex. -/
inductive Operation where
  | lock
  | trylock
  | spinlock
  | unlock
  deriving DecidableEq

/-- The places of the operations.  An operation that has taken the lock of a recursive
mutex records its owner at `own`. -/
inductive Place where
  | outside
  | compareOwner (operation : Operation)
  | tryAcquire
  | acquireWaiter
  | tryAgain
  | enqueue
  | waiting
  | releaseWaiter
  | tryOnce
  | spin
  | own
  | nest
  | readNesting
  | unnest
  | clearOwner
  | unlockAcquire
  | releaseLock
  | broadcast
  | unlockRelease
  deriving DecidableEq

variable {ι : Type u}

/-- The first place of an operation that has to take or to release the lock. -/
def Operation.noRecursion : Operation → Place
  | .lock => .tryAcquire
  | .trylock => .tryOnce
  | .spinlock => .spin
  | .unlock => .unlockAcquire

/-- The test-and-set of the lock. -/
def testAndSet (s : State ι) (taken failed : Place) : State ι × Place :=
  if s.lock then (s, failed) else ({ s with lock := true }, taken)

variable [DecidableEq ι]

/-- The caller locks the mutex once more. -/
def deepen (s : State ι) (c : ι) : State ι :=
  { s with depth := Function.update s.depth c (s.depth c + 1) }

/-- The caller unlocks the mutex once. -/
def shallow (s : State ι) (c : ι) : State ι :=
  { s with depth := Function.update s.depth c (s.depth c - 1) }

/-- A turn in an operation.  Only the holder unlocks the mutex. -/
def turn (recursive : Bool) (c : ι) (operation : Operation) (s : State ι) :
    Place → Option (State ι × Place)
  | .outside =>
      match operation with
      | .unlock =>
          if s.depth c = 0 then none
          else if recursive then some (s, .readNesting)
          else some (shallow s c, .unlockAcquire)
      | operation =>
          if recursive then some (s, .compareOwner operation)
          else some (s, operation.noRecursion)
  | .compareOwner operation =>
      if s.ownerId = some c then some (s, .nest) else some (s, operation.noRecursion)
  | .tryAcquire => some (testAndSet s .own .acquireWaiter)
  | .acquireWaiter =>
      if s.waiterLock then none else some ({ s with waiterLock := true }, .tryAgain)
  | .tryAgain => some (testAndSet s .releaseWaiter .enqueue)
  | .enqueue => some ({ s with waitlist := s.waitlist ++ [c], waiterLock := false }, .waiting)
  | .waiting => if c ∈ s.waitlist then none else some (s, .tryAcquire)
  | .releaseWaiter => some ({ s with waiterLock := false }, .own)
  | .tryOnce => some (testAndSet s .own .outside)
  | .spin => if s.lock then none else some ({ s with lock := true }, .own)
  | .own =>
      some (deepen (if recursive then { s with ownerId := some c } else s) c, .outside)
  | .nest => some (deepen { s with nestingCnt := s.nestingCnt + 1 } c, .outside)
  | .readNesting => some (s, if s.nestingCnt = 0 then .clearOwner else .unnest)
  | .unnest => some (shallow { s with nestingCnt := s.nestingCnt - 1 } c, .outside)
  | .clearOwner => some (shallow { s with ownerId := none } c, .unlockAcquire)
  | .unlockAcquire =>
      if s.waiterLock then none else some ({ s with waiterLock := true }, .releaseLock)
  | .releaseLock => some ({ s with lock := false }, .broadcast)
  | .broadcast =>
      match s.waitlist with
      | [] => some (s, .unlockRelease)
      | _ :: rest => some ({ s with waitlist := rest }, .broadcast)
  | .unlockRelease => some ({ s with waiterLock := false }, .outside)

/-- Callers of a mutex. -/
def calls (ι : Type u) [DecidableEq ι] (recursive : Bool) :
    Callers ι (State ι) Place Operation where
  turn c operation s place := turn recursive c operation s place

omit [DecidableEq ι] in
/-- `ABTI_mutex_init` -/
def Begins (world : World ι (State ι) Place) : Prop :=
  world.shared.lock = false ∧ world.shared.waiterLock = false ∧ world.shared.waitlist = [] ∧
    world.shared.nestingCnt = 0 ∧ world.shared.ownerId = none ∧
      (∀ c, world.shared.depth c = 0) ∧ ∀ c, world.place c = .outside

/-- A mutex with its callers. -/
def mutexes (ι : Type u) [DecidableEq ι] (recursive : Bool) :
    Machine (World ι (State ι) Place) (ι × Operation) :=
  (calls ι recursive).machine Begins

/-! ## Assertions -/

/-- The holder of the lock, the holder of the waitlist's lock, and the caller that wakes the
waiters. -/
structure Owners (ι : Type u) where
  lock : Option ι
  waiter : Option ι
  waking : Option ι

/-- The caller has the lock at the place, although it has not locked the mutex. -/
def Place.HoldsLock : Place → Prop
  | .releaseWaiter | .own | .unlockAcquire | .releaseLock => True
  | _ => False

/-- The caller has the lock of the waitlist at the place. -/
def Place.HoldsWaiter : Place → Prop
  | .tryAgain | .enqueue | .releaseWaiter | .releaseLock | .broadcast | .unlockRelease => True
  | _ => False

/-- What a caller knows at its place. -/
def PlaceAt (recursive : Bool) (c : ι) (s : State ι) : Place → Prop
  | .compareOwner operation => recursive = true ∧ operation ≠ .unlock
  | .enqueue => s.lock = true
  | .nest | .readNesting => recursive = true ∧ 0 < s.depth c
  | .clearOwner => recursive = true ∧ s.depth c = 1
  | .unnest => recursive = true ∧ 1 < s.depth c
  | _ => True

/-- The assertion of a caller. -/
structure Local (recursive : Bool) (owners : Owners ι) (c : ι) (s : State ι) (place : Place) :
    Prop where
  lock : owners.lock = some c ↔ place.HoldsLock ∨ 0 < s.depth c
  apart : place.HoldsLock → s.depth c = 0
  waiter : owners.waiter = some c ↔ place.HoldsWaiter
  waking : owners.waking = some c ↔ place = .broadcast
  known : PlaceAt recursive c s place

/-- What is shared agrees with the owners. -/
structure Global (recursive : Bool) (owners : Owners ι) (s : State ι) : Prop where
  lock : s.lock = owners.lock.isSome
  waiterLock : s.waiterLock = owners.waiter.isSome
  waking : ∀ c, owners.waking = some c → owners.waiter = some c
  wakes : s.lock = false → s.waitlist = [] ∨ owners.waking ≠ none
  holder : ∀ c, 0 < s.depth c → owners.lock = some c
  plain : recursive = false → ∀ c, s.depth c ≤ 1
  owner : recursive = true → ∀ c, s.ownerId = some c ↔ 0 < s.depth c
  nesting : recursive = true → ∀ c, 0 < s.depth c → s.nestingCnt + 1 = s.depth c
  idle : recursive = true → (∀ c, s.depth c = 0) → s.nestingCnt = 0

/-! ## One turn -/

section Turn

variable {recursive : Bool} {owners owners' : Owners ι} {c d : ι} {s s' : State ι}
  {place place' : Place}

/-- What a turn of another caller leaves to a caller. -/
structure Keeps (owners owners' : Owners ι) (s s' : State ι) (d : ι) : Prop where
  lock : owners'.lock = some d ↔ owners.lock = some d
  waiter : owners'.waiter = some d ↔ owners.waiter = some d
  waking : owners'.waking = some d ↔ owners.waking = some d
  depth : s'.depth d = s.depth d
  locked : owners.waiter = some d → s.lock = true → s'.lock = true

omit [DecidableEq ι] in
theorem Local.mono (keeps : Keeps owners owners' s s' d)
    (holds : Local recursive owners d s place) : Local recursive owners' d s' place where
  lock := by rw [keeps.lock, holds.lock, keeps.depth]
  apart held := by rw [keeps.depth, holds.apart held]
  waiter := keeps.waiter.trans holds.waiter
  waking := keeps.waking.trans holds.waking
  known := by
    have known := holds.known
    cases place with
    | enqueue => exact keeps.locked (holds.waiter.mpr trivial) known
    | nest | readNesting | clearOwner | unnest =>
        rw [PlaceAt, keeps.depth]
        exact known
    | _ => trivial

/-- What a turn has to establish. -/
def Fine (recursive : Bool) (owners : Owners ι) (c : ι) (s s' : State ι) (place' : Place) : Prop :=
  ∃ owners', Global recursive owners' s' ∧ Local recursive owners' c s' place' ∧
    ∀ d, d ≠ c → Keeps owners owners' s s' d

omit [DecidableEq ι] in
/-- A turn that changes nothing that is shared. -/
theorem Local.still (holds : Local recursive owners c s place) (fine : Global recursive owners s)
    (lock : place'.HoldsLock ↔ place.HoldsLock) (waiter : place'.HoldsWaiter ↔ place.HoldsWaiter)
    (waking : place' = .broadcast ↔ place = .broadcast) (known : PlaceAt recursive c s place') :
    Fine recursive owners c s s place' :=
  ⟨owners, fine, ⟨holds.lock.trans (or_congr_left lock.symm), fun held => holds.apart (lock.mp held),
    holds.waiter.trans waiter.symm, holds.waking.trans waking.symm, known⟩,
    fun _ _ => ⟨.rfl, .rfl, .rfl, rfl, fun _ => id⟩⟩

omit [DecidableEq ι] in
/-- The test-and-set succeeds. -/
theorem Local.take (holds : Local recursive owners c s place) (fine : Global recursive owners s)
    (free : s.lock = false) (lock : place'.HoldsLock)
    (waiter : place'.HoldsWaiter ↔ place.HoldsWaiter)
    (waking : place' = .broadcast ↔ place = .broadcast)
    (known : PlaceAt recursive c { s with lock := true } place') :
    Fine recursive owners c s { s with lock := true } place' := by
  have nobody : owners.lock = none := by simpa [fine.lock] using free
  have idle : ∀ d, s.depth d = 0 := fun d => by
    by_contra deep
    cases nobody.symm.trans (fine.holder d (Nat.pos_of_ne_zero deep))
  have notDeep : ∀ d, ¬0 < s.depth d := fun d => by simp [idle d]
  exact ⟨{ owners with lock := some c }, ⟨rfl, fine.waiterLock, fine.waking, nofun,
      fun d deep => absurd deep (notDeep d), fine.plain, fine.owner, fine.nesting, fine.idle⟩,
    ⟨iff_of_true rfl (.inl lock), fun _ => idle c, holds.waiter.trans waiter.symm,
      holds.waking.trans waking.symm, known⟩,
    fun d different => ⟨by simp [nobody, different.symm], .rfl, .rfl, rfl, fun _ _ => rfl⟩⟩

omit [DecidableEq ι] in
/-- The caller takes the lock of the waitlist. -/
theorem Local.takeWaiter (holds : Local recursive owners c s place)
    (fine : Global recursive owners s) (free : ¬s.waiterLock = true)
    (lock : place'.HoldsLock ↔ place.HoldsLock) (waiter : place'.HoldsWaiter)
    (waking : place' = .broadcast ↔ place = .broadcast)
    (known : PlaceAt recursive c { s with waiterLock := true } place') :
    Fine recursive owners c s { s with waiterLock := true } place' := by
  have nobody : owners.waiter = none := by simpa [fine.waiterLock] using free
  have noneWakes : ∀ d, owners.waking ≠ some d := fun d wakes => by
    cases nobody.symm.trans (fine.waking d wakes)
  exact ⟨{ owners with waiter := some c }, ⟨fine.lock, rfl, fun d wakes =>
      absurd wakes (noneWakes d), fine.wakes, fine.holder, fine.plain, fine.owner, fine.nesting,
      fine.idle⟩,
    ⟨holds.lock.trans (or_congr_left lock.symm), fun held => holds.apart (lock.mp held),
      iff_of_true rfl waiter, holds.waking.trans waking.symm, known⟩,
    fun d different => ⟨.rfl, by simp [nobody, different.symm], .rfl, rfl, fun _ => id⟩⟩

omit [DecidableEq ι] in
/-- The caller releases the lock of the waitlist, which may have got one more waiter. -/
theorem Local.releaseWaiter (holds : Local recursive owners c s place)
    (fine : Global recursive owners s) (held : place.HoldsWaiter) {waitlist : List ι}
    (wakes : s.lock = false → waitlist = [] ∨ owners.waking ≠ none)
    (lock : place'.HoldsLock ↔ place.HoldsLock) (waiter : ¬place'.HoldsWaiter)
    (waking : place' = .broadcast ↔ place = .broadcast)
    (known : PlaceAt recursive c { s with waitlist := waitlist, waiterLock := false } place') :
    Fine recursive owners c s { s with waitlist := waitlist, waiterLock := false } place' := by
  have mine := holds.waiter.mpr held
  have notWaking : ∀ d, owners.waking ≠ some d := by
    intro d isWaking
    obtain rfl := Option.some.inj (mine.symm.trans (fine.waking d isWaking))
    rw [waking.mpr (holds.waking.mp isWaking)] at waiter
    exact waiter trivial
  exact ⟨{ owners with waiter := none }, ⟨fine.lock, rfl, fun d isWaking =>
      absurd isWaking (notWaking d), wakes, fine.holder, fine.plain, fine.owner, fine.nesting,
      fine.idle⟩,
    ⟨holds.lock.trans (or_congr_left lock.symm), fun held => holds.apart (lock.mp held),
      iff_of_false nofun waiter, holds.waking.trans waking.symm, known⟩,
    fun d different => ⟨.rfl, by simp [mine, different.symm], .rfl, rfl, fun _ => id⟩⟩

/-- The holder changes how often it has locked the mutex. -/
theorem Local.count (holds : Local recursive owners c s place) (mine : owners.lock = some c)
    (fine : Global recursive owners s) {nestingCnt depth : ℕ} {ownerId : Option ι}
    (plain : recursive = false → depth ≤ 1)
    (owner : recursive = true → ownerId = if depth = 0 then none else some c)
    (nesting : recursive = true → nestingCnt = depth - 1)
    (lock : place'.HoldsLock ↔ depth = 0) (waiter : place'.HoldsWaiter ↔ place.HoldsWaiter)
    (waking : place' = .broadcast ↔ place = .broadcast)
    (known : PlaceAt recursive c { s with
      nestingCnt := nestingCnt
      ownerId := ownerId
      depth := Function.update s.depth c depth } place') :
    Fine recursive owners c s { s with
      nestingCnt := nestingCnt
      ownerId := ownerId
      depth := Function.update s.depth c depth } place' := by
  have others : ∀ d, d ≠ c → s.depth d = 0 := fun d different => by
    by_contra deep
    exact different (Option.some.inj
      ((fine.holder d (Nat.pos_of_ne_zero deep)).symm.trans mine))
  refine ⟨owners, ⟨fine.lock, fine.waiterLock, fine.waking, fine.wakes, fun d deep => ?_,
    fun isPlain d => ?_,
    fun isRecursive d => ?_, fun isRecursive d deep => ?_, fun isRecursive idle => ?_⟩,
    ⟨iff_of_true mine ?_, fun held => by simpa using lock.mp held, holds.waiter.trans waiter.symm,
      holds.waking.trans waking.symm, known⟩,
    fun d different => ⟨.rfl, .rfl, .rfl, by simp [different], fun _ => id⟩⟩
  · rcases eq_or_ne d c with rfl | different
    · exact mine
    · simp [different, others d different] at deep
  · rcases eq_or_ne d c with rfl | different
    · simpa using plain isPlain
    · simp [different, others d different]
  · rw [owner isRecursive]
    rcases eq_or_ne d c with rfl | different
    · rcases Nat.eq_zero_or_pos depth with zero | positive
      · simp [zero]
      · simp [positive, Nat.ne_of_gt positive]
    · simp [different, different.symm, others d different]
  · rcases eq_or_ne d c with rfl | different
    · simp only [Function.update_self] at deep ⊢
      rw [nesting isRecursive, Nat.sub_add_cancel deep]
    · simp [different, others d different] at deep
  · have zero : depth = 0 := by simpa using idle c
    simp [nesting isRecursive, zero]
  · rcases Nat.eq_zero_or_pos depth with zero | positive
    · exact .inl (lock.mpr zero)
    · exact .inr (by simpa using positive)

omit [DecidableEq ι] in
/-- A caller that has just taken the lock finds no nesting. -/
theorem Local.nesting_eq_zero (holds : Local recursive owners c s place)
    (fine : Global recursive owners s) (held : place.HoldsLock) (isRecursive : recursive = true) :
    s.nestingCnt = 0 := by
  refine fine.idle isRecursive fun d => ?_
  by_contra deep
  have mine := holds.lock.mpr (.inl held)
  obtain rfl := Option.some.inj ((fine.holder d (Nat.pos_of_ne_zero deep)).symm.trans mine)
  exact deep (holds.apart held)

omit [DecidableEq ι] in
/-- The holder of the lock releases it, and is about to wake the waiters. -/
theorem Local.releaseLock (holds : Local recursive owners c s .releaseLock)
    (fine : Global recursive owners s) :
    Fine recursive owners c s { s with lock := false } .broadcast := by
  have mine := holds.lock.mpr (.inl trivial)
  have waiter := holds.waiter.mpr trivial
  have idle : ∀ d, s.depth d = 0 := fun d => by
    by_contra deep
    obtain rfl := Option.some.inj ((fine.holder d (Nat.pos_of_ne_zero deep)).symm.trans mine)
    exact deep (holds.apart trivial)
  have notDeep : ∀ d, ¬0 < s.depth d := fun d => by simp [idle d]
  have notTheirs : ∀ d, d ≠ c → owners.waiter ≠ some d := fun d different theirs =>
    different (Option.some.inj (theirs.symm.trans waiter))
  refine ⟨{ owners with lock := none, waking := some c }, ⟨rfl, fine.waiterLock, fun d same => ?_,
      fun _ => .inr nofun, fun d deep => absurd deep (notDeep d), fine.plain, fine.owner,
      fine.nesting, fine.idle⟩,
    ⟨iff_of_false nofun (by simp [idle c, Place.HoldsLock]), fun _ => idle c,
      iff_of_true waiter trivial, iff_of_true rfl rfl, trivial⟩,
    fun d different => ⟨by simp [mine, different.symm], .rfl, ?_, rfl, fun theirs =>
      absurd theirs (notTheirs d different)⟩⟩
  · obtain rfl := Option.some.inj same
    exact waiter
  · refine iff_of_false (fun same => different (Option.some.inj same).symm) fun theirs => ?_
    exact notTheirs d different (fine.waking d theirs)

omit [DecidableEq ι] in
/-- A waiter is woken, or there is none any more. -/
theorem Local.broadcast (holds : Local recursive owners c s .broadcast)
    (fine : Global recursive owners s) :
    (s.waitlist = [] → Fine recursive owners c s s .unlockRelease) ∧
      ∀ rest, Fine recursive owners c s { s with waitlist := rest } .broadcast := by
  have mine := holds.waking.mpr rfl
  have notLock : owners.lock = some c ↔ False ∨ 0 < s.depth c := holds.lock
  refine ⟨fun empty => ?_, fun rest => ?_⟩
  · exact ⟨{ owners with waking := none }, ⟨fine.lock, fine.waiterLock, nofun, fun _ => .inl empty,
        fine.holder, fine.plain, fine.owner, fine.nesting, fine.idle⟩,
      ⟨notLock, False.elim, holds.waiter, iff_of_false nofun nofun, trivial⟩,
      fun d different => ⟨.rfl, .rfl, by simp [mine, different.symm], rfl, fun _ => id⟩⟩
  · exact ⟨owners, ⟨fine.lock, fine.waiterLock, fine.waking, fun _ => .inr (by simp [mine]),
        fine.holder, fine.plain, fine.owner, fine.nesting, fine.idle⟩,
      ⟨notLock, False.elim, holds.waiter, holds.waking, trivial⟩,
      fun _ _ => ⟨.rfl, .rfl, .rfl, rfl, fun _ => id⟩⟩

omit [DecidableEq ι] in
/-- The test-and-set of a caller that has nothing of the lock yet. -/
theorem Local.testAndSet (holds : Local recursive owners c s place)
    (fine : Global recursive owners s) {taken failed : Place}
    (result : Mutex.testAndSet s taken failed = (s', place')) (idle : ¬place.HoldsLock)
    (lock : taken.HoldsLock) (noLock : ¬failed.HoldsLock)
    (waiter : taken.HoldsWaiter ↔ place.HoldsWaiter)
    (noWaiter : failed.HoldsWaiter ↔ place.HoldsWaiter)
    (waking : taken ≠ .broadcast ∧ failed ≠ .broadcast ∧ place ≠ .broadcast)
    (known : PlaceAt recursive c { s with lock := true } taken)
    (unknown : s.lock = true → PlaceAt recursive c s failed) :
    Fine recursive owners c s s' place' := by
  rw [Mutex.testAndSet] at result
  split at result
  next busy =>
    cases result
    exact holds.still fine (iff_of_false noLock idle) noWaiter
      (iff_of_false waking.2.1 waking.2.2) (unknown busy)
  next free =>
    cases result
    exact holds.take fine (eq_false_of_ne_true free) lock waiter
      (iff_of_false waking.1 waking.2.2) known

/-- The caller begins an operation. -/
theorem Local.begin (holds : Local recursive owners c s .outside) (fine : Global recursive owners s)
    {operation : Operation} (taken : turn recursive c operation s .outside = some (s', place')) :
    Fine recursive owners c s s' place' := by
  cases operation with
  | unlock =>
      obtain ⟨locked, taken⟩ := Option.ite_none_left_eq_some.mp taken
      have deep := Nat.pos_of_ne_zero locked
      split at taken
      next isRecursive =>
        cases taken
        exact holds.still fine .rfl .rfl (by simp) ⟨isRecursive, deep⟩
      next isPlain =>
        cases taken
        have plain := fine.plain (eq_false_of_ne_true isPlain) c
        have zero : s.depth c - 1 = 0 := Nat.sub_eq_zero_of_le plain
        exact holds.count (fine.holder c deep) fine (fun _ => by simp [zero])
          (fun isRecursive => absurd isRecursive isPlain)
          (fun isRecursive => absurd isRecursive isPlain) (iff_of_true trivial zero) .rfl (by simp)
          trivial
  | lock | trylock | spinlock =>
      rw [Mutex.turn] at taken
      · split at taken <;> cases taken
        · exact holds.still fine .rfl .rfl (by simp) ⟨‹_›, by simp⟩
        · exact holds.still fine .rfl .rfl (by simp [Operation.noRecursion]) trivial
      · simp

/-- **Every turn keeps the assertions.** -/
theorem Local.turn (holds : Local recursive owners c s place) (fine : Global recursive owners s)
    {operation : Operation} (taken : turn recursive c operation s place = some (s', place')) :
    Fine recursive owners c s s' place' := by
  have known := holds.known
  cases place with
  | outside => exact holds.begin fine taken
  | compareOwner operation =>
      obtain ⟨isRecursive, notUnlock⟩ := known
      rw [Mutex.turn] at taken
      split at taken
      next owner =>
        cases taken
        exact holds.still fine .rfl .rfl (by simp)
          ⟨isRecursive, (fine.owner isRecursive c).mp owner⟩
      next =>
        cases taken
        cases operation with
        | unlock => exact absurd rfl notUnlock
        | lock | trylock | spinlock =>
            exact holds.still fine .rfl .rfl (by simp [Operation.noRecursion]) trivial
  | tryAcquire =>
      exact holds.testAndSet fine (Option.some.inj taken) id trivial id .rfl .rfl (by simp) trivial
        fun _ => trivial
  | acquireWaiter =>
      obtain ⟨free, taken⟩ := Option.ite_none_left_eq_some.mp taken
      cases taken
      exact holds.takeWaiter fine free .rfl trivial (by simp) trivial
  | tryAgain =>
      exact holds.testAndSet fine (Option.some.inj taken) id trivial id .rfl .rfl (by simp) trivial
        id
  | enqueue =>
      cases taken
      have locked : s.lock = true := known
      exact holds.releaseWaiter fine trivial (fun free => by simp [locked] at free) .rfl id (by simp)
        trivial
  | waiting =>
      obtain ⟨left, taken⟩ := Option.ite_none_left_eq_some.mp taken
      cases taken
      exact holds.still fine .rfl .rfl (by simp) trivial
  | releaseWaiter =>
      cases taken
      exact holds.releaseWaiter fine trivial fine.wakes .rfl id (by simp) trivial
  | tryOnce =>
      exact holds.testAndSet fine (Option.some.inj taken) id trivial id .rfl .rfl (by simp) trivial
        fun _ => trivial
  | spin =>
      obtain ⟨free, taken⟩ := Option.ite_none_left_eq_some.mp taken
      cases taken
      exact holds.take fine (eq_false_of_ne_true free) trivial .rfl (by simp) trivial
  | own =>
      cases taken
      have mine := holds.lock.mpr (.inl trivial)
      have zero := holds.apart trivial
      cases recursive with
      | true =>
          have nesting := holds.nesting_eq_zero fine trivial rfl
          exact holds.count mine fine nofun (fun _ => by simp) (fun _ => by simp [nesting, zero])
            (iff_of_false id (Nat.succ_ne_zero _)) .rfl (by simp) trivial
      | false =>
          exact holds.count mine fine (fun _ => by simp [zero]) nofun nofun
            (iff_of_false id (Nat.succ_ne_zero _)) .rfl (by simp) trivial
  | nest =>
      cases taken
      obtain ⟨rfl, deep⟩ := known
      have owner := (fine.owner rfl c).mpr deep
      have nesting := fine.nesting rfl c deep
      exact holds.count (fine.holder c deep) fine nofun (fun _ => owner) (fun _ => nesting)
        (iff_of_false id (Nat.succ_ne_zero _)) .rfl (by simp) trivial
  | readNesting =>
      cases taken
      obtain ⟨isRecursive, deep⟩ := known
      have nesting := fine.nesting isRecursive c deep
      split
      next none =>
        rw [none] at nesting
        exact holds.still fine .rfl .rfl (by simp) ⟨isRecursive, nesting.symm⟩
      next some =>
        refine holds.still fine .rfl .rfl (by simp) ⟨isRecursive, ?_⟩
        rw [← nesting]
        exact Nat.succ_lt_succ (Nat.pos_of_ne_zero some)
  | unnest =>
      cases taken
      obtain ⟨rfl, deep⟩ := known
      have positive := Nat.zero_lt_of_lt deep
      have owner := (fine.owner rfl c).mpr positive
      have nesting := fine.nesting rfl c positive
      have more : s.depth c - 1 ≠ 0 := Nat.sub_ne_zero_of_lt deep
      exact holds.count (fine.holder c positive) fine nofun (fun _ => by rw [owner, if_neg more])
        (fun _ => by rw [← nesting, Nat.add_sub_cancel]) (iff_of_false id more) .rfl (by simp)
        trivial
  | clearOwner =>
      cases taken
      obtain ⟨rfl, one⟩ := known
      have deep : 0 < s.depth c := by rw [one]; exact Nat.one_pos
      have nesting := fine.nesting rfl c deep
      have zero : s.depth c - 1 = 0 := by rw [one]
      exact holds.count (fine.holder c deep) fine nofun (fun _ => by rw [if_pos zero])
        (fun _ => by rw [zero, ← Nat.add_right_cancel_iff, nesting, one])
        (iff_of_true trivial zero) .rfl (by simp) trivial
  | unlockAcquire =>
      obtain ⟨free, taken⟩ := Option.ite_none_left_eq_some.mp taken
      cases taken
      exact holds.takeWaiter fine free .rfl trivial (by simp) trivial
  | releaseLock =>
      cases taken
      exact holds.releaseLock fine
  | broadcast =>
      rw [Mutex.turn] at taken
      split at taken
      next empty =>
        cases taken
        exact (holds.broadcast fine).1 empty
      next =>
        cases taken
        exact (holds.broadcast fine).2 _
  | unlockRelease =>
      cases taken
      exact holds.releaseWaiter fine trivial fine.wakes .rfl id (by simp) trivial

end Turn

omit [DecidableEq ι] in
theorem Local.of_begins {recursive : Bool} {world : World ι (State ι) Place}
    (begins : Begins world) : ∃ owners, Global recursive owners world.shared ∧
      ∀ c, Local recursive owners c world.shared (world.place c) := by
  obtain ⟨lock, waiterLock, waitlist, nestingCnt, ownerId, depth, outside⟩ := begins
  have notDeep : ∀ c, ¬0 < world.shared.depth c := fun c => by simp [depth c]
  refine ⟨⟨none, none, none⟩, ⟨lock, waiterLock, nofun, fun _ => .inl waitlist,
    fun c deep => absurd deep (notDeep c), fun _ c => by simp [depth c],
    fun _ c => iff_of_false (by simp [ownerId]) (notDeep c),
    fun _ c deep => absurd deep (notDeep c), fun _ _ => nestingCnt⟩, fun c => ?_⟩
  rw [outside c]
  exact ⟨iff_of_false nofun (not_or.mpr ⟨id, notDeep c⟩), False.elim, iff_of_false nofun id,
    iff_of_false nofun nofun, trivial⟩

theorem Local.of_reachable {recursive : Bool} {world : World ι (State ι) Place}
    (reachable : (mutexes ι recursive).Reachable Machine.anyEvent world) :
    ∃ owners, Global recursive owners world.shared ∧
      ∀ c, Local recursive owners c world.shared (world.place c) := by
  refine Callers.invariant (Global recursive) (Local recursive) (fun _ => Local.of_begins) ?_
    reachable
  rintro owners world c operation shared place - fine holds taken
  obtain ⟨owners', fine', mine, others⟩ := (holds c).turn fine taken
  exact ⟨owners', fine', mine, fun d different other kept => kept.mono (others d different)⟩

/-! ## Routines that use a mutex -/

/-- The places of a lock of a plain mutex. -/
def Place.Locks : Place → Prop
  | .outside | .tryAcquire | .acquireWaiter | .tryAgain | .enqueue | .waiting | .releaseWaiter
  | .own => True
  | _ => False

/-- The places of an unlock of a plain mutex. -/
def Place.Unlocks : Place → Prop
  | .outside | .unlockAcquire | .releaseLock | .broadcast | .unlockRelease => True
  | _ => False

section Routines

variable {c d : ι} {s s' : State ι} {place place' : Place}

/-- A lock is counted when it returns. -/
theorem lock_turn (inside : place.Locks) (taken : turn false c .lock s place = some (s', place')) :
    place'.Locks ∧ s'.depth c = if place' = .outside then s.depth c + 1 else s.depth c := by
  cases place with
  | outside =>
      cases taken
      exact ⟨trivial, rfl⟩
  | tryAcquire | tryAgain =>
      rw [turn, testAndSet] at taken
      split at taken <;> cases taken <;> exact ⟨trivial, rfl⟩
  | acquireWaiter | waiting =>
      obtain ⟨-, taken⟩ := Option.ite_none_left_eq_some.mp taken
      cases taken
      exact ⟨trivial, rfl⟩
  | enqueue | releaseWaiter =>
      cases taken
      exact ⟨trivial, rfl⟩
  | own =>
      cases taken
      exact ⟨trivial, Function.update_self ..⟩
  | _ => exact inside.elim

/-- An unlock is counted when it begins. -/
theorem unlock_turn (inside : place.Unlocks)
    (taken : turn false c .unlock s place = some (s', place')) :
    place'.Unlocks ∧ s'.depth c = if place = .outside then s.depth c - 1 else s.depth c := by
  cases place with
  | outside =>
      obtain ⟨-, taken⟩ := Option.ite_none_left_eq_some.mp taken
      cases taken
      exact ⟨trivial, Function.update_self ..⟩
  | unlockAcquire =>
      obtain ⟨-, taken⟩ := Option.ite_none_left_eq_some.mp taken
      cases taken
      exact ⟨trivial, rfl⟩
  | releaseLock | unlockRelease =>
      cases taken
      exact ⟨trivial, rfl⟩
  | broadcast =>
      rw [turn] at taken
      split at taken <;> cases taken <;> exact ⟨trivial, rfl⟩
  | _ => exact inside.elim

/-- A lock of a mutex that its caller will have locked `n` times. -/
def LockTo (n : ℕ) (c : ι) (s : State ι) : Place → Prop
  | .outside | .tryAcquire | .acquireWaiter | .tryAgain | .enqueue | .waiting | .releaseWaiter | .own
  | .nest => s.depth c + 1 = n
  | .compareOwner operation => operation = .lock ∧ s.depth c + 1 = n
  | _ => False

/-- An unlock of a mutex that its caller had locked `n` times. -/
def UnlockFrom (n : ℕ) (c : ι) (s : State ι) : Place → Prop
  | .outside | .readNesting | .unnest | .clearOwner => s.depth c = n
  | .unlockAcquire | .releaseLock | .broadcast | .unlockRelease => s.depth c + 1 = n
  | _ => False

variable {recursive : Bool} {n : ℕ}

omit [DecidableEq ι] in
theorem LockTo.mono (same : s'.depth c = s.depth c) (progress : LockTo n c s place) :
    LockTo n c s' place := by
  cases place <;> first | exact progress.elim | simpa only [LockTo, same] using progress

omit [DecidableEq ι] in
theorem LockTo.pos (progress : LockTo n c s place) : 0 < n := by
  cases place with
  | compareOwner operation => exact progress.2 ▸ Nat.succ_pos _
  | outside | tryAcquire | acquireWaiter | tryAgain | enqueue | waiting | releaseWaiter | own
  | nest =>
      have count : s.depth c + 1 = n := progress
      exact count ▸ Nat.succ_pos _
  | _ => exact progress.elim

omit [DecidableEq ι] in
theorem UnlockFrom.mono (same : s'.depth c = s.depth c) (progress : UnlockFrom n c s place) :
    UnlockFrom n c s' place := by
  cases place <;> first | exact progress.elim | simpa only [UnlockFrom, same] using progress

/-- A lock goes on, or it returns and is counted. -/
theorem LockTo.turn (progress : LockTo n c s place)
    (taken : turn recursive c .lock s place = some (s', place')) :
    LockTo n c s' place' ∧ place' ≠ .outside ∨ place' = .outside ∧ s'.depth c = n := by
  cases place with
  | outside =>
      have count : s.depth c + 1 = n := progress
      rw [Mutex.turn] at taken
      · split at taken <;> cases taken
        · exact .inl ⟨⟨rfl, count⟩, nofun⟩
        · exact .inl ⟨count, nofun⟩
      · simp
  | compareOwner operation =>
      obtain ⟨rfl, count⟩ := progress
      rw [Mutex.turn] at taken
      split at taken <;> cases taken <;> exact .inl ⟨count, nofun⟩
  | tryAcquire | tryAgain =>
      rw [Mutex.turn, testAndSet] at taken
      split at taken <;> cases taken <;> exact .inl ⟨progress, nofun⟩
  | acquireWaiter | waiting =>
      obtain ⟨-, taken⟩ := Option.ite_none_left_eq_some.mp taken
      cases taken
      exact .inl ⟨progress, nofun⟩
  | enqueue | releaseWaiter =>
      cases taken
      exact .inl ⟨progress, nofun⟩
  | own | nest =>
      have count : s.depth c + 1 = n := progress
      cases taken
      refine .inr ⟨rfl, ?_⟩
      rw [← count]
      cases recursive <;> exact Function.update_self ..
  | _ => exact progress.elim

/-- An unlock goes on, or it returns and has been counted. -/
theorem UnlockFrom.turn (progress : UnlockFrom n c s place) (positive : 0 < n)
    (taken : turn recursive c .unlock s place = some (s', place')) :
    UnlockFrom n c s' place' ∧ place' ≠ .outside ∨ place' = .outside ∧ s'.depth c + 1 = n := by
  have counted : s.depth c = n → (shallow s c).depth c + 1 = n := fun count => by
    change Function.update s.depth c (s.depth c - 1) c + 1 = n
    rw [Function.update_self, count, Nat.sub_add_cancel positive]
  cases place with
  | outside =>
      obtain ⟨-, taken⟩ := Option.ite_none_left_eq_some.mp taken
      split at taken <;> cases taken
      · exact .inl ⟨progress, nofun⟩
      · exact .inl ⟨counted progress, nofun⟩
  | readNesting =>
      cases taken
      split <;> exact .inl ⟨progress, nofun⟩
  | unnest =>
      cases taken
      exact .inr ⟨rfl, counted progress⟩
  | clearOwner =>
      cases taken
      exact .inl ⟨counted progress, nofun⟩
  | unlockAcquire =>
      obtain ⟨-, taken⟩ := Option.ite_none_left_eq_some.mp taken
      cases taken
      exact .inl ⟨progress, nofun⟩
  | releaseLock =>
      cases taken
      exact .inl ⟨progress, nofun⟩
  | broadcast =>
      rw [Mutex.turn] at taken
      split at taken <;> cases taken <;> exact .inl ⟨progress, nofun⟩
  | unlockRelease =>
      cases taken
      exact .inr ⟨rfl, progress⟩
  | _ => exact progress.elim

end Routines

omit [DecidableEq ι] in
theorem Keeps.refl {owners : Owners ι} {s : State ι} {d : ι} : Keeps owners owners s s d :=
  ⟨.rfl, .rfl, .rfl, rfl, fun _ => id⟩

omit [DecidableEq ι] in
/-- One caller at a time has locked the mutex. -/
theorem Global.alone {owners : Owners ι} {s : State ι} {recursive : Bool}
    (fine : Global recursive owners s) {c d : ι} (mine : 0 < s.depth c) (different : d ≠ c) :
    ¬0 < s.depth d := fun theirs =>
  different (Option.some.inj ((fine.holder d theirs).symm.trans (fine.holder c mine)))

/-! ## What the mutex excludes -/

omit [DecidableEq ι] in
/-- A caller holds the mutex from its test-and-set until it releases the lock. -/
def Holds (world : World ι (State ι) Place) (c : ι) : Prop :=
  (world.place c).HoldsLock ∨ 0 < world.shared.depth c

omit [DecidableEq ι] in
/-- One caller holds the mutex, the owner and the nesting are those of the caller that has locked
it, and whoever waits while the mutex is free is about to be woken. -/
structure Excludes (recursive : Bool) (world : World ι (State ι) Place) : Prop where
  holders : ∀ c d, Holds world c → Holds world d → c = d
  locked : world.shared.lock = true ↔ ∃ c, Holds world c
  nesting : recursive = true → ∀ c, 0 < world.shared.depth c →
    world.shared.nestingCnt = world.shared.depth c - 1 ∧ world.shared.ownerId = some c
  unowned : recursive = true → (∀ c, world.shared.depth c = 0) →
    world.shared.nestingCnt = 0 ∧ world.shared.ownerId = none
  assertion : recursive = true → ∀ c, world.place c = .own → world.shared.nestingCnt = 0
  woken : world.shared.lock = false → world.shared.waitlist ≠ [] →
    ∃ c, world.place c = .broadcast

omit [DecidableEq ι] in
theorem Excludes.of_local {recursive : Bool} {owners : Owners ι} {world : World ι (State ι) Place}
    (fine : Global recursive owners world.shared)
    (locals : ∀ c, Local recursive owners c world.shared (world.place c)) :
    Excludes recursive world where
  holders c d mine theirs :=
    Option.some.inj (((locals c).lock.mpr mine).symm.trans ((locals d).lock.mpr theirs))
  locked := by
    rw [fine.lock, Option.isSome_iff_exists]
    exact exists_congr fun c => (locals c).lock
  nesting isRecursive c deep :=
    ⟨Nat.eq_sub_of_add_eq (fine.nesting isRecursive c deep), (fine.owner isRecursive c).mpr deep⟩
  unowned isRecursive idle := by
    refine ⟨fine.idle isRecursive idle, Option.eq_none_iff_forall_ne_some.mpr fun c owner => ?_⟩
    have deep := (fine.owner isRecursive c).mp owner
    rw [idle c] at deep
    exact Nat.lt_irrefl 0 deep
  assertion isRecursive c here := by
    have held : (world.place c).HoldsLock := by
      rw [here]
      trivial
    exact (locals c).nesting_eq_zero fine held isRecursive
  woken free waiting := by
    obtain ⟨c, wakes⟩ :=
      Option.ne_none_iff_exists'.mp ((fine.wakes free).resolve_left waiting)
    exact ⟨c, (locals c).waking.mp wakes⟩

/-! ## Calls and returns -/

/-- What an observer knows of a caller: its last operation, and how often it has the mutex. -/
structure Locks where
  operation : Operation
  held : ℕ
  deriving DecidableEq

/-- A trylock that returns from here has failed. -/
def Place.fails : Place → Bool
  | .tryOnce => true
  | _ => false

/-- The observer that counts what has been locked. -/
def locks : Observer (State ι) Place Operation Locks where
  idle place := decide (place = .outside)
  called operation locks :=
    ⟨operation, if operation = .unlock then locks.held - 1 else locks.held⟩
  sees _ _ locks := locks
  returned place locks :=
    if locks.operation = .unlock ∨ place.fails then locks
    else { locks with held := locks.held + 1 }

/-- What an observer has recorded in a run to a state. -/
abbrev Observed (ι : Type u) [DecidableEq ι] (recursive : Bool) (world : World ι (State ι) Place)
    (records : ι → Locks) : Prop :=
  (calls ι recursive).Observed Begins locks ⟨.unlock, 0⟩ world records

/-- The operations that come to a place. -/
def Place.Of (operation : Operation) : Place → Prop
  | .outside => True
  | .compareOwner asked => asked = operation ∧ operation ≠ .unlock
  | .tryAcquire | .acquireWaiter | .tryAgain | .enqueue | .waiting | .releaseWaiter =>
      operation = .lock
  | .tryOnce => operation = .trylock
  | .spin => operation = .spinlock
  | .own | .nest => operation ≠ .unlock
  | .readNesting | .unnest | .clearOwner | .unlockAcquire | .releaseLock | .broadcast
  | .unlockRelease => operation = .unlock

/-- The unlock has begun, and has not been counted yet. -/
def Place.uncounted : Place → ℕ
  | .readNesting | .unnest | .clearOwner => 1
  | _ => 0

/-- The depth of a caller is what the observer has counted. -/
def Counted (c : ι) (s : State ι) (locks : Locks) (place : Place) : Prop :=
  place.Of locks.operation ∧ s.depth c = locks.held + place.uncounted

section Calls

variable {recursive : Bool} {c d : ι} {s s' : State ι} {place place' : Place} {record : Locks}

omit [DecidableEq ι] in
/-- An operation begins. -/
theorem Counted.call {operation : Operation} (after : place' ≠ .outside)
    (of : place'.Of operation)
    (depth : s'.depth c = (if operation = .unlock then record.held - 1 else record.held) +
      place'.uncounted) :
    Counted c s' (locks.watch operation s .outside s' place' record) place' := by
  rw [Observer.watch_call rfl (decide_eq_false after)]
  exact ⟨of, depth⟩

omit [DecidableEq ι] in
/-- A turn inside an operation that leaves the depth. -/
theorem Counted.inside {operation : Operation} (counted : Counted c s record place)
    (before : place ≠ .outside) (after : place' ≠ .outside)
    (of : place.Of record.operation → place'.Of record.operation)
    (depth : s'.depth c + place.uncounted = s.depth c + place'.uncounted) :
    Counted c s' (locks.watch operation s place s' place' record) place' := by
  obtain ⟨asked, count⟩ := counted
  rw [Observer.watch_inside (decide_eq_false before) (decide_eq_false after)]
  have unchanged : s'.depth c = record.held + place'.uncounted := by omega
  exact ⟨of asked, unchanged⟩

omit [DecidableEq ι] in
/-- The end of an operation. -/
theorem Counted.return {operation : Operation} (before : place ≠ .outside)
    (depth : s'.depth c = if record.operation = .unlock ∨ place.fails then record.held
      else record.held + 1) :
    Counted c s' (locks.watch operation s place s' .outside record) .outside := by
  rw [Observer.watch_return (decide_eq_false before) rfl]
  refine ⟨trivial, depth.trans ?_⟩
  simp only [locks]
  split <;> rfl

omit [DecidableEq ι] in
theorem depth_testAndSet (s : State ι) (taken failed : Place) :
    (testAndSet s taken failed).1.depth = s.depth := by
  rw [testAndSet]
  split <;> rfl

/-- The first place of an operation without recursion -/
theorem Operation.of_noRecursion {operation : Operation} (locks : operation ≠ .unlock) :
    operation.noRecursion ≠ .outside ∧ operation.noRecursion.Of operation ∧
      operation.noRecursion.uncounted = 0 := by
  cases operation with
  | unlock => exact absurd rfl locks
  | lock | trylock | spinlock => exact ⟨nofun, rfl, rfl⟩

/-- **Every turn counts what its caller has locked.** -/
theorem Counted.turn {operation : Operation} (counted : Counted c s record place)
    (taken : turn recursive c operation s place = some (s', place')) :
    Counted c s' (locks.watch operation s place s' place' record) place' := by
  obtain ⟨asked, count⟩ := counted
  have deeper : ∀ t : State ι, t.depth = s.depth → (deepen t c).depth c = s.depth c + 1 := by
    intro t same
    rw [← same]
    exact Function.update_self ..
  have less : ∀ t : State ι, t.depth = s.depth → (shallow t c).depth c = s.depth c - 1 := by
    intro t same
    rw [← same]
    exact Function.update_self ..
  cases place with
  | outside =>
      have count : s.depth c = record.held := count
      have begins : operation ≠ .unlock → place' = .compareOwner operation ∨
          place' = operation.noRecursion → s' = s →
          Counted c s' (locks.watch operation s .outside s' place' record) place' := by
        rintro notUnlock (rfl | rfl) rfl
        · exact .call nofun ⟨rfl, notUnlock⟩ (by rw [if_neg notUnlock]; exact count)
        · obtain ⟨inside, of, none⟩ := Operation.of_noRecursion notUnlock
          exact .call inside of (by rw [if_neg notUnlock, none]; exact count)
      cases operation with
      | unlock =>
          obtain ⟨deep, taken⟩ := Option.ite_none_left_eq_some.mp taken
          split at taken <;> cases taken
          · exact .call nofun rfl (by simp only [if_true, Place.uncounted]; omega)
          · exact .call nofun rfl (by rw [less s rfl, count]; rfl)
      | lock | trylock | spinlock =>
          rw [Mutex.turn] at taken
          · split at taken <;> cases taken
            · exact begins nofun (.inl rfl) rfl
            · exact begins nofun (.inr rfl) rfl
          · simp
  | compareOwner asked' =>
      obtain ⟨rfl, notUnlock⟩ := asked
      obtain ⟨inside, of, none⟩ := Operation.of_noRecursion notUnlock
      rw [Mutex.turn] at taken
      split at taken <;> cases taken
      · exact Counted.inside ⟨⟨rfl, notUnlock⟩, count⟩ nofun nofun (fun _ => notUnlock) rfl
      · exact Counted.inside ⟨⟨rfl, notUnlock⟩, count⟩ nofun inside (fun _ => of)
          (by rw [none]; rfl)
  | tryAcquire =>
      rw [Mutex.turn, testAndSet] at taken
      split at taken <;> cases taken
      · exact Counted.inside ⟨asked, count⟩ nofun nofun id rfl
      · exact Counted.inside ⟨asked, count⟩ nofun nofun (fun asked => by rw [asked]; exact nofun) rfl
  | tryAgain =>
      rw [Mutex.turn, testAndSet] at taken
      split at taken <;> cases taken <;> exact Counted.inside ⟨asked, count⟩ nofun nofun id rfl
  | tryOnce =>
      rw [Mutex.turn, testAndSet] at taken
      split at taken <;> cases taken
      · exact .return nofun (by rw [if_pos (.inr rfl)]; exact count)
      · exact Counted.inside ⟨asked, count⟩ nofun nofun (fun asked => by rw [asked]; exact nofun) rfl
  | acquireWaiter | waiting | unlockAcquire =>
      obtain ⟨-, taken⟩ := Option.ite_none_left_eq_some.mp taken
      cases taken
      exact Counted.inside ⟨asked, count⟩ nofun nofun id rfl
  | spin =>
      obtain ⟨-, taken⟩ := Option.ite_none_left_eq_some.mp taken
      cases taken
      exact Counted.inside ⟨asked, count⟩ nofun nofun (fun asked => by rw [asked]; exact nofun) rfl
  | enqueue | releaseLock =>
      cases taken
      exact Counted.inside ⟨asked, count⟩ nofun nofun id rfl
  | releaseWaiter =>
      cases taken
      exact Counted.inside ⟨asked, count⟩ nofun nofun (fun asked => by rw [asked]; exact nofun) rfl
  | own | nest =>
      cases taken
      refine .return nofun ?_
      rw [if_neg (not_or.mpr ⟨asked, nofun⟩), deeper _ (by first | rfl | (split <;> rfl)), count]
      rfl
  | readNesting =>
      cases taken
      split <;> exact Counted.inside ⟨asked, count⟩ nofun nofun id rfl
  | unnest =>
      cases taken
      refine .return nofun ?_
      rw [if_pos (.inl asked), less { s with nestingCnt := s.nestingCnt - 1 } rfl, count]
      rfl
  | clearOwner =>
      cases taken
      refine Counted.inside ⟨asked, count⟩ nofun nofun id ?_
      rw [less { s with ownerId := none } rfl, count]
      simp [Place.uncounted]
  | broadcast =>
      rw [Mutex.turn] at taken
      split at taken <;> cases taken <;> exact Counted.inside ⟨asked, count⟩ nofun nofun id rfl
  | unlockRelease =>
      cases taken
      exact .return nofun (by rw [if_pos (.inl asked)]; exact count)

/-- A turn leaves the depth of other callers. -/
theorem depth_turn_of_ne {operation : Operation} (different : d ≠ c)
    (taken : turn recursive c operation s place = some (s', place')) : s'.depth d = s.depth d := by
  have others : ∀ (t : State ι) (depth : ℕ), t.depth = s.depth →
      Function.update t.depth c depth d = s.depth d := by
    intro t depth same
    rw [Function.update_of_ne different, same]
  cases place with
  | outside =>
      cases operation with
      | unlock =>
          obtain ⟨-, taken⟩ := Option.ite_none_left_eq_some.mp taken
          split at taken <;> cases taken
          · rfl
          · exact others s _ rfl
      | lock | trylock | spinlock =>
          rw [Mutex.turn] at taken
          · split at taken <;> cases taken <;> rfl
          · simp
  | compareOwner =>
      rw [Mutex.turn] at taken
      split at taken <;> cases taken <;> rfl
  | tryAcquire | tryAgain | tryOnce =>
      have result := congrArg Prod.fst (Option.some.inj taken)
      rw [← show _ = s' from result, depth_testAndSet]
  | acquireWaiter | waiting | spin | unlockAcquire =>
      obtain ⟨-, taken⟩ := Option.ite_none_left_eq_some.mp taken
      cases taken
      rfl
  | enqueue | releaseWaiter | readNesting | releaseLock | unlockRelease =>
      cases taken
      rfl
  | own | nest | unnest | clearOwner =>
      cases taken
      exact others _ _ (by first | rfl | (split <;> rfl))
  | broadcast =>
      rw [Mutex.turn] at taken
      split at taken <;> cases taken <;> rfl

variable {world : World ι (State ι) Place} {records : ι → Locks}

theorem Counted.of_observed (seen : Observed ι recursive world records) (c : ι) :
    Counted c world.shared (records c) (world.place c) := by
  refine seen.holds Counted ?_ ?_ ?_ c
  · rintro world ⟨-, -, -, -, -, depth, outside⟩ c
    rw [outside c]
    exact ⟨trivial, depth c⟩
  · exact fun world c operation shared place record _ taken counted => counted.turn taken
  · rintro world c operation shared place d record different - taken ⟨asked, count⟩
    exact ⟨asked, (depth_turn_of_ne different taken).trans count⟩

end Calls

/-- A caller that has the mutex by its calls holds it, alone, and outside the operations it has it
as often as the mutex counts. -/
structure Locked (world : World ι (State ι) Place) (records : ι → Locks) : Prop where
  holds : ∀ c, 0 < (records c).held → Holds world c
  alone : ∀ c d, 0 < (records c).held → 0 < (records d).held → c = d
  depth : ∀ c, world.place c = .outside → world.shared.depth c = (records c).held

omit [DecidableEq ι] in
theorem Locked.of_counted {recursive : Bool} {world : World ι (State ι) Place}
    {records : ι → Locks} (excludes : Excludes recursive world)
    (counted : ∀ c, Counted c world.shared (records c) (world.place c)) : Locked world records := by
  have holds : ∀ c, 0 < (records c).held → Holds world c := fun c held =>
    .inr ((counted c).2 ▸ Nat.add_pos_left held _)
  refine ⟨holds, fun c d mine theirs => excludes.holders c d (holds c mine) (holds d theirs),
    fun c here => ?_⟩
  have count := (counted c).2
  rw [here] at count
  exact count

/-- **The mutex excludes and forgets nobody.** -/
theorem mutex_excludes {ι : Type u} [DecidableEq ι] {recursive : Bool}
    {world : World ι (State ι) Place}
    (reachable : (mutexes ι recursive).Reachable Machine.anyEvent world) :
    Excludes recursive world ∧ (∃ records, Observed ι recursive world records) ∧
      ∀ records, Observed ι recursive world records → Locked world records := by
  obtain ⟨owners, fine, locals⟩ := Local.of_reachable reachable
  have excludes := Excludes.of_local fine locals
  exact ⟨excludes, Callers.exists_observed _ _ reachable,
    fun _ seen => .of_counted excludes (Counted.of_observed seen)⟩

def twoOutside : World (Fin 2) (State (Fin 2)) Place where
  shared := ⟨false, false, [], 0, none, fun _ => 0⟩
  place _ := .outside

/-- The first of two callers locks a recursive mutex twice while the second one waits, and unlocks
it twice: the mutex is free, and the second caller is about to be woken. -/
theorem mutex_excludes_two :
    ∃ world : World (Fin 2) (State (Fin 2)) Place, Excludes true world ∧
      world.shared.lock = false ∧ world.shared.waitlist = [1] ∧ world.place 0 = .broadcast := by
  obtain ⟨world, reachable, places⟩ := Machine.exists_reachable_of_play Machine.anyEvent
    (M := mutexes (Fin 2) true) (s := twoOutside)
    ⟨rfl, rfl, rfl, rfl, rfl, fun _ => rfl, fun _ => rfl⟩
    ([(0, .lock), (0, .lock), (0, .lock), (0, .lock), (0, .lock), (0, .lock), (0, .lock),
      (1, .lock), (1, .lock), (1, .lock), (1, .lock), (1, .lock), (1, .lock),
      (0, .unlock), (0, .unlock), (0, .unlock), (0, .unlock), (0, .unlock), (0, .unlock),
      (0, .unlock), (0, .unlock)] : List (Fin 2 × Operation))
    (fun world => world.shared.lock = false ∧ world.shared.waitlist = [1] ∧
      world.place 0 = .broadcast) (by decide)
  exact ⟨world, (mutex_excludes reachable).1, of_decide_eq_true places⟩

end ArgobotsReduction.Sync.Mutex
