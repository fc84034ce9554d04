import ArgobotsReduction.Sync.Mutex
import ArgobotsReduction.Sync.Waitlist

/-!
# The condition variable

A caller that waits on a condition variable releases a mutex it has locked, and locks it
again when it is woken or when its time is over.  The condition variable records the mutex
of a wait under its own lock, and refuses a wait with another one.

The checks of a wait let a recursive mutex pass when its nesting count is at most one, and
the count of a mutex that has been locked once is zero.  The unlock of a wait only counts
down when the mutex has been locked twice, so that the caller keeps the mutex while it
waits.  Nothing removes the record of the mutex when the last waiter has returned.

The mutexes are those of `Sync.Mutex`, turn by turn, and the waitlist is the queue of the
callers that are to be woken.  A caller waits only with a mutex that it has locked.
-/

set_option autoImplicit false

namespace ArgobotsReduction.Sync.Cond

open Parallel
open Waitlist (Kind)

universe u v

/-- `ABTI_cond` and the mutexes it is used with.  No operation reads the last two fields:
`used` has the mutexes of the waits that have not been refused, latest first, and `called`
is how often a caller had locked its mutex when it began to wait. -/
structure State (ι : Type u) (μ : Type v) where
  lock : Bool
  waiterMutex : Option μ
  waitlist : List ι
  mutex : μ → Mutex.State ι
  used : List μ
  called : ι → ℕ

/-- The operations on the condition variable and on the mutexes.  A wait of a timed kind is an
`ABT_cond_timedwait`, and any other one an `ABT_cond_wait`. -/
inductive Operation (μ : Type v) where
  | mutex (operation : Mutex.Operation) (m : μ)
  | wait (kind : Kind) (m : μ)
  | signal
  | broadcast
  deriving DecidableEq

/-- The operation that a caller begins, and whether the time of its timed wait is over. -/
structure Choice (μ : Type v) where
  operation : Operation μ
  late : Bool

/-- What a wait returns. -/
inductive Result where
  | success
  | timedOut
  | invMutex
  deriving DecidableEq

/-- The places of the operations.  A place in an operation on a mutex has a place of the
mutex. -/
inductive Place (μ : Type v) where
  | outside
  | operating (operation : Mutex.Operation) (m : μ) (inner : Mutex.Place)
  | acquire (kind : Kind) (m : μ)
  | associate (kind : Kind) (m : μ)
  | refuse (m : μ)
  | unlocking (kind : Kind) (m : μ) (inner : Mutex.Place)
  | enqueue (kind : Kind) (m : μ)
  | waiting (kind : Kind) (m : μ)
  | reacquire (kind : Kind) (m : μ)
  | check (kind : Kind) (m : μ)
  | leave (m : μ)
  | relocking (m : μ) (result : Result) (inner : Mutex.Place)
  | returning (m : μ) (result : Result)
  | signalAcquire
  | signal
  | broadcastAcquire
  | broadcast
  | release
  deriving DecidableEq

variable {ι : Type u} {μ : Type v} [DecidableEq ι] [DecidableEq μ]

/-- The checks of `ABT_cond_wait` and of `ABT_cond_timedwait`. -/
def passes (recursive : Bool) (c : ι) (s : Mutex.State ι) : Bool :=
  s.lock && !(recursive && s.ownerId != some c) && !(recursive && decide (1 < s.nestingCnt))

/-- A turn in an operation on a mutex. -/
def call (recursive : μ → Bool) (operation : Mutex.Operation) (m : μ) (c : ι) (s : State ι μ)
    (inside : Mutex.Place → Place μ) (after : Place μ) (inner : Mutex.Place) :
    Option (State ι μ × Place μ) :=
  (Mutex.turn (recursive m) c operation (s.mutex m) inner).map fun result =>
    ({ s with mutex := Function.update s.mutex m result.1 },
      if result.2 = .outside then after else inside result.2)

/-- A turn in an operation. -/
def turn (recursive : μ → Bool) (c : ι) (choice : Choice μ) (s : State ι μ) :
    Place μ → Option (State ι μ × Place μ)
  | .outside =>
      match choice.operation with
      | .mutex operation m =>
          call recursive operation m c s (.operating operation m) .outside .outside
      | .wait kind m =>
          let depth := (s.mutex m).depth c
          if depth ≠ 0 ∧ passes (recursive m) c (s.mutex m) then
            some ({ s with called := Function.update s.called c depth }, .acquire kind m)
          else none
      | .signal => some (s, .signalAcquire)
      | .broadcast => some (s, .broadcastAcquire)
  | .operating operation m inner =>
      call recursive operation m c s (.operating operation m) .outside inner
  | .acquire kind m => if s.lock then none else some ({ s with lock := true }, .associate kind m)
  | .associate kind m =>
      match s.waiterMutex with
      | none =>
          some ({ s with waiterMutex := some m, used := m :: s.used }, .unlocking kind m .outside)
      | some waiterMutex =>
          if waiterMutex ≠ m then some (s, .refuse m)
          else some ({ s with used := m :: s.used }, .unlocking kind m .outside)
  | .refuse m => some ({ s with lock := false }, .returning m .invMutex)
  | .unlocking kind m inner =>
      call recursive .unlock m c s (.unlocking kind m) (.enqueue kind m) inner
  | .enqueue kind m =>
      -- a caller that sleeps looks once more before it releases the lock
      if kind.sleeps then some ({ s with waitlist := s.waitlist ++ [c] }, .check kind m)
      else some ({ s with waitlist := s.waitlist ++ [c], lock := false }, .waiting kind m)
  | .waiting kind m =>
      if c ∉ s.waitlist then some (s, .relocking m .success .outside)
      else if kind.sleeps || kind.isTimed && choice.late then some (s, .reacquire kind m)
      else none
  | .reacquire kind m => if s.lock then none else some ({ s with lock := true }, .check kind m)
  | .check kind m =>
      if kind.isTimed && (choice.late || !kind.sleeps) then some (s, .leave m)
      else if c ∉ s.waitlist then some ({ s with lock := false }, .relocking m .success .outside)
      else some ({ s with lock := false }, .waiting kind m)
  | .leave m =>
      let result := if c ∈ s.waitlist then .timedOut else .success
      some ({ s with waitlist := s.waitlist.erase c, lock := false }, .relocking m result .outside)
  | .relocking m result inner =>
      call recursive .lock m c s (.relocking m result) (.returning m result) inner
  | .returning _ _ => some (s, .outside)
  | .signalAcquire => if s.lock then none else some ({ s with lock := true }, .signal)
  | .signal => some ({ s with waitlist := s.waitlist.tail }, .release)
  | .broadcastAcquire => if s.lock then none else some ({ s with lock := true }, .broadcast)
  | .broadcast =>
      match s.waitlist with
      | [] => some (s, .release)
      | _ :: rest => some ({ s with waitlist := rest }, .broadcast)
  | .release => some ({ s with lock := false }, .outside)

/-- Callers of a condition variable. -/
def calls (ι : Type u) [DecidableEq ι] (recursive : μ → Bool) :
    Callers ι (State ι μ) (Place μ) (Choice μ) where
  turn c choice s place := turn recursive c choice s place

omit [DecidableEq ι] [DecidableEq μ] in
/-- `ABTI_cond_init` -/
def Begins (world : World ι (State ι μ) (Place μ)) : Prop :=
  (∀ m, Mutex.Begins ⟨world.shared.mutex m, fun _ => .outside⟩) ∧ world.shared.lock = false ∧
    world.shared.waiterMutex = none ∧ world.shared.waitlist = [] ∧ world.shared.used = [] ∧
      ∀ c, world.place c = .outside

/-- A condition variable with its callers. -/
def conds (ι : Type u) [DecidableEq ι] (recursive : μ → Bool) :
    Machine (World ι (State ι μ) (Place μ)) (ι × Choice μ) :=
  (calls ι recursive).machine Begins

/-! ## Assertions -/

/-- The owners of the mutexes, and the holder of the condition variable's lock. -/
structure Owners (ι : Type u) (μ : Type v) where
  mutex : μ → Mutex.Owners ι
  cond : Option ι

/-- The place in a mutex. -/
def Place.mutexAt (m : μ) : Place μ → Mutex.Place
  | .operating _ other inner | .unlocking _ other inner | .relocking other _ inner =>
      if other = m then inner else .outside
  | _ => .outside

/-- The caller has the lock of the condition variable at the place. -/
def Place.HoldsCond : Place μ → Prop
  | .associate _ _ | .refuse _ | .unlocking _ _ _ | .enqueue _ _ | .check _ _ | .leave _ | .signal
  | .broadcast | .release => True
  | _ => False

/-- The caller waits with the mutex: it has released it once, and has not begun to lock it
again. -/
def Place.WaitsWith (m : μ) : Place μ → Prop
  | .waiting _ other | .reacquire _ other | .check _ other | .leave other => other = m
  | _ => False

/-- The caller is in a wait. -/
def Place.InWait : Place μ → Prop
  | .acquire _ _ | .associate _ _ | .refuse _ | .unlocking _ _ _ | .enqueue _ _ | .waiting _ _
  | .reacquire _ _ | .check _ _ | .leave _ | .relocking _ _ _ | .returning _ _ => True
  | _ => False

/-- The caller is in a wait with the mutex that has not been refused. -/
def Place.Uses (m : μ) : Place μ → Prop
  | .unlocking _ other _ | .enqueue _ other | .waiting _ other | .reacquire _ other
  | .check _ other | .leave other | .relocking other _ _ => other = m
  | .returning other result => other = m ∧ result ≠ .invMutex
  | _ => False

/-- What a caller knows at its place. -/
def PlaceAt (c : ι) (s : State ι μ) : Place μ → Prop
  | .acquire _ m | .associate _ m | .refuse m | .returning m _ =>
      (s.mutex m).depth c = s.called c ∧ 0 < s.called c
  | .unlocking _ m inner => Mutex.UnlockFrom (s.called c) c (s.mutex m) inner ∧ 0 < s.called c
  | .enqueue _ m | .waiting _ m | .reacquire _ m | .check _ m | .leave m =>
      (s.mutex m).depth c + 1 = s.called c
  | .relocking m _ inner => Mutex.LockTo (s.called c) c (s.mutex m) inner
  | _ => True

/-- The assertion of a caller. -/
structure Local (recursive : μ → Bool) (owners : Owners ι μ) (c : ι) (s : State ι μ)
    (place : Place μ) : Prop where
  mutex : ∀ m, Mutex.Local (recursive m) (owners.mutex m) c (s.mutex m) (place.mutexAt m)
  cond : owners.cond = some c ↔ place.HoldsCond
  listed : c ∈ s.waitlist → ∃ m, place.WaitsWith m
  uses : ∀ m, place.Uses m → s.waiterMutex = some m
  known : PlaceAt c s place

/-- What is shared agrees with the owners. -/
structure Global (recursive : μ → Bool) (owners : Owners ι μ) (s : State ι μ) : Prop where
  mutex : ∀ m, Mutex.Global (recursive m) (owners.mutex m) (s.mutex m)
  lock : s.lock = owners.cond.isSome
  distinct : s.waitlist.Nodup
  used : ∀ m, s.waiterMutex = some m ↔ m ∈ s.used

/-! ## One turn -/

section Turn

variable {recursive : μ → Bool} {owners owners' : Owners ι μ} {c d : ι} {s s' : State ι μ}
  {place place' : Place μ}

/-- What a turn of another caller leaves to a caller. -/
structure Keeps (owners owners' : Owners ι μ) (s s' : State ι μ) (d : ι) : Prop where
  mutex : ∀ m, Mutex.Keeps (owners.mutex m) (owners'.mutex m) (s.mutex m) (s'.mutex m) d
  cond : owners'.cond = some d ↔ owners.cond = some d
  listed : d ∈ s'.waitlist → d ∈ s.waitlist
  called : s'.called d = s.called d
  waiterMutex : ∀ m, s.waiterMutex = some m → s'.waiterMutex = some m

omit [DecidableEq ι] [DecidableEq μ] in
/-- What a caller knows is about its own counts. -/
theorem PlaceAt.mono (counts : ∀ m, (s'.mutex m).depth c = (s.mutex m).depth c)
    (called : s'.called c = s.called c) (known : PlaceAt c s place) : PlaceAt c s' place := by
  cases place with
  | unlocking kind m inner =>
      obtain ⟨progress, positive⟩ := known
      rw [PlaceAt, called]
      exact ⟨progress.mono (counts m), positive⟩
  | relocking m result inner =>
      rw [PlaceAt, called]
      exact Mutex.LockTo.mono (counts m) known
  | outside | operating | signalAcquire | signal | broadcastAcquire | broadcast | release => trivial
  | _ => simpa only [PlaceAt, counts, called] using known

omit [DecidableEq ι] in
theorem Local.mono (keeps : Keeps owners owners' s s' d)
    (holds : Local recursive owners d s place) : Local recursive owners' d s' place where
  mutex m := (holds.mutex m).mono (keeps.mutex m)
  cond := keeps.cond.trans holds.cond
  listed listed := holds.listed (keeps.listed listed)
  uses m uses := keeps.waiterMutex m (holds.uses m uses)
  known := holds.known.mono (fun m => (keeps.mutex m).depth) keeps.called

/-- What a turn has to establish. -/
def Fine (recursive : μ → Bool) (owners : Owners ι μ) (c : ι) (s s' : State ι μ)
    (place' : Place μ) : Prop :=
  ∃ owners', Global recursive owners' s' ∧ Local recursive owners' c s' place' ∧
    ∀ d, d ≠ c → Keeps owners owners' s s' d

omit [DecidableEq ι] in
/-- Only a caller that waits is in the waitlist. -/
theorem Local.notListed (holds : Local recursive owners c s place)
    (elsewhere : ∀ m, ¬place.WaitsWith m) : c ∉ s.waitlist := by
  intro listed
  obtain ⟨m, waits⟩ := holds.listed listed
  exact elsewhere m waits

omit [DecidableEq ι] in
/-- A turn that leaves the mutexes as they are. -/
theorem Local.settle (holds : Local recursive owners c s place) (fine : Global recursive owners s)
    {cond : Option ι} (mutex : s'.mutex = s.mutex) (inner : ∀ m, place'.mutexAt m = place.mutexAt m)
    (lock : s'.lock = cond.isSome) (mine : cond = some c ↔ place'.HoldsCond)
    (theirs : ∀ d, d ≠ c → (cond = some d ↔ owners.cond = some d)) (distinct : s'.waitlist.Nodup)
    (listed : c ∈ s'.waitlist → ∃ m, place'.WaitsWith m)
    (others : ∀ d, d ≠ c → d ∈ s'.waitlist → d ∈ s.waitlist)
    (used : ∀ m, s'.waiterMutex = some m ↔ m ∈ s'.used)
    (kept : ∀ m, s.waiterMutex = some m → s'.waiterMutex = some m)
    (uses : ∀ m, place'.Uses m → s'.waiterMutex = some m)
    (called : ∀ d, d ≠ c → s'.called d = s.called d) (known : PlaceAt c s' place') :
    Fine recursive owners c s s' place' := by
  refine ⟨{ owners with cond := cond }, ⟨?_, lock, distinct, used⟩,
    ⟨fun m => ?_, mine, listed, uses, known⟩, fun d different => ⟨fun m => ?_, theirs d different,
      others d different, called d different, kept⟩⟩
  · rw [mutex]
    exact fine.mutex
  · rw [mutex, inner m]
    exact holds.mutex m
  · rw [mutex]
    exact .refl

omit [DecidableEq ι] in
/-- A turn that changes nothing that is shared. -/
theorem Local.still (holds : Local recursive owners c s place) (fine : Global recursive owners s)
    (inner : ∀ m, place'.mutexAt m = place.mutexAt m)
    (cond : place'.HoldsCond ↔ place.HoldsCond)
    (listed : c ∈ s.waitlist → ∃ m, place'.WaitsWith m)
    (uses : ∀ m, place'.Uses m → s.waiterMutex = some m) (known : PlaceAt c s place') :
    Fine recursive owners c s s place' :=
  holds.settle fine rfl inner fine.lock (holds.cond.trans cond.symm) (fun _ _ => .rfl) fine.distinct
    listed (fun _ _ => id) fine.used (fun _ => id) uses (fun _ _ => rfl) known

omit [DecidableEq ι] in
/-- The caller takes the lock of the condition variable. -/
theorem Local.acquire (holds : Local recursive owners c s place) (fine : Global recursive owners s)
    (free : ¬s.lock = true) (inner : ∀ m, place'.mutexAt m = place.mutexAt m)
    (cond : place'.HoldsCond) (listed : c ∈ s.waitlist → ∃ m, place'.WaitsWith m)
    (uses : ∀ m, place'.Uses m → s.waiterMutex = some m)
    (known : PlaceAt c { s with lock := true } place') :
    Fine recursive owners c s { s with lock := true } place' := by
  have nobody : owners.cond = none := by simpa [fine.lock] using free
  exact @Local.settle _ _ _ _ _ _ _ { s with lock := true } _ _ holds fine (some c) rfl inner rfl
    (iff_of_true rfl cond) (fun d different => by simp [nobody, different.symm]) fine.distinct
    listed (fun _ _ => id) fine.used (fun _ => id) uses (fun _ _ => rfl) known

omit [DecidableEq ι] in
/-- The caller releases the lock of the condition variable, where it may have got into the
waitlist or may have left it. -/
theorem Local.release (holds : Local recursive owners c s place) (fine : Global recursive owners s)
    (held : place.HoldsCond) {waitlist : List ι} (distinct : waitlist.Nodup)
    (others : ∀ d, d ≠ c → d ∈ waitlist → d ∈ s.waitlist)
    (inner : ∀ m, place'.mutexAt m = place.mutexAt m) (cond : ¬place'.HoldsCond)
    (listed : c ∈ waitlist → ∃ m, place'.WaitsWith m)
    (uses : ∀ m, place'.Uses m → s.waiterMutex = some m)
    (known : PlaceAt c { s with waitlist := waitlist, lock := false } place') :
    Fine recursive owners c s { s with waitlist := waitlist, lock := false } place' := by
  have mine := holds.cond.mpr held
  refine @Local.settle _ _ _ _ _ _ _ { s with waitlist := waitlist, lock := false } _ _ holds fine
    none rfl inner rfl (iff_of_false nofun cond) (fun d different => ?_) distinct listed others
    fine.used (fun _ => id) uses (fun _ _ => rfl) known
  exact iff_of_false nofun fun theirs => different (Option.some.inj (theirs.symm.trans mine))

omit [DecidableEq ι] in
/-- The holder of the lock of the condition variable changes the waitlist. -/
theorem Local.requeue (holds : Local recursive owners c s place) (fine : Global recursive owners s)
    {waitlist : List ι} (distinct : waitlist.Nodup)
    (others : ∀ d, d ≠ c → d ∈ waitlist → d ∈ s.waitlist)
    (inner : ∀ m, place'.mutexAt m = place.mutexAt m)
    (cond : place'.HoldsCond ↔ place.HoldsCond)
    (listed : c ∈ waitlist → ∃ m, place'.WaitsWith m)
    (uses : ∀ m, place'.Uses m → s.waiterMutex = some m)
    (known : PlaceAt c { s with waitlist := waitlist } place') :
    Fine recursive owners c s { s with waitlist := waitlist } place' :=
  @Local.settle _ _ _ _ _ _ _ { s with waitlist := waitlist } _ _ holds fine owners.cond rfl inner
    fine.lock (holds.cond.trans cond.symm) (fun _ _ => .rfl) distinct listed others fine.used
    (fun _ => id) uses (fun _ _ => rfl) known

/-- A turn in a mutex. -/
theorem Local.call (holds : Local recursive owners c s place) (fine : Global recursive owners s)
    {operation : Mutex.Operation} {m : μ} {mutex : Mutex.State ι} {inner inner' : Mutex.Place}
    (taken : Mutex.turn (recursive m) c operation (s.mutex m) inner = some (mutex, inner'))
    (before : ∀ other, place.mutexAt other = if m = other then inner else .outside)
    (after : ∀ other, place'.mutexAt other = if m = other then inner' else .outside)
    (cond : place'.HoldsCond ↔ place.HoldsCond) (listed : c ∉ s.waitlist)
    (uses : ∀ other, place'.Uses other → s.waiterMutex = some other)
    (known : PlaceAt c { s with mutex := Function.update s.mutex m mutex } place') :
    Fine recursive owners c s { s with mutex := Function.update s.mutex m mutex } place' := by
  have start := holds.mutex m
  rw [before m, if_pos rfl] at start
  obtain ⟨owner, fineInner, mine, others⟩ := start.turn (fine.mutex m) taken
  refine ⟨{ owners with mutex := Function.update owners.mutex m owner },
    ⟨fun other => ?_, fine.lock, fine.distinct, fine.used⟩,
    ⟨fun other => ?_, holds.cond.trans cond.symm, fun member => absurd member listed, uses, known⟩,
    fun d different => ⟨fun other => ?_, .rfl, id, rfl, fun _ => id⟩⟩
  · rcases eq_or_ne other m with rfl | elsewhere
    · simpa only [Function.update_self] using fineInner
    · simpa only [Function.update_of_ne elsewhere] using fine.mutex other
  · rcases eq_or_ne other m with rfl | elsewhere
    · simpa only [Function.update_self, after, if_pos] using mine
    · have unmoved := holds.mutex other
      rw [before other, if_neg elsewhere.symm] at unmoved
      rw [after other, if_neg elsewhere.symm]
      simpa only [Function.update_of_ne elsewhere] using unmoved
  · rcases eq_or_ne other m with rfl | elsewhere
    · simpa only [Function.update_self] using others d different
    · simp only [Function.update_of_ne elsewhere]
      exact .refl

theorem call_eq_some {operation : Mutex.Operation} {m : μ} {inside : Mutex.Place → Place μ}
    {after : Place μ} {inner : Mutex.Place}
    (taken : call recursive operation m c s inside after inner = some (s', place')) :
    ∃ mutex inner', Mutex.turn (recursive m) c operation (s.mutex m) inner = some (mutex, inner') ∧
      s' = { s with mutex := Function.update s.mutex m mutex } ∧
        place' = if inner' = .outside then after else inside inner' := by
  obtain ⟨⟨mutex, inner'⟩, ran, result⟩ := Option.map_eq_some_iff.mp taken
  cases result
  exact ⟨mutex, inner', ran, rfl, rfl⟩

/-- A caller begins an operation. -/
theorem Local.begin (holds : Local recursive owners c s .outside)
    (fine : Global recursive owners s) {choice : Choice μ}
    (taken : turn recursive c choice s .outside = some (s', place')) :
    Fine recursive owners c s s' place' := by
  have notListed := holds.notListed fun _ => id
  obtain ⟨operation, late⟩ := choice
  cases operation with
  | mutex operation m =>
      obtain ⟨mutex, inner', ran, rfl, rfl⟩ := call_eq_some taken
      rcases eq_or_ne inner' .outside with rfl | inside
      · exact holds.call fine ran (fun _ => by simp [Place.mutexAt])
          (fun _ => by simp [Place.mutexAt]) .rfl notListed (fun _ => False.elim) trivial
      · rw [if_neg inside]
        exact holds.call fine ran (fun _ => by simp [Place.mutexAt]) (fun _ => rfl) .rfl notListed
          (fun _ => False.elim) trivial
  | wait kind m =>
      obtain ⟨⟨deep, -⟩, taken⟩ := Option.ite_none_right_eq_some.mp taken
      cases taken
      refine @Local.settle _ _ _ _ _ _ _ { s with called := _ } _ _ holds fine owners.cond rfl
        (fun _ => rfl) fine.lock holds.cond (fun _ _ => .rfl) fine.distinct
        (fun member => absurd member notListed) (fun _ _ => id) fine.used (fun _ => id)
        (fun _ => False.elim) (fun d different => Function.update_of_ne different ..) ?_
      change (s.mutex m).depth c = Function.update s.called c ((s.mutex m).depth c) c ∧
        0 < Function.update s.called c ((s.mutex m).depth c) c
      rw [Function.update_self]
      exact ⟨rfl, Nat.pos_of_ne_zero deep⟩
  | signal | broadcast =>
      cases taken
      exact holds.still fine (fun _ => rfl) .rfl (fun member => absurd member notListed)
        (fun _ => False.elim) trivial

/-- The mutex of a wait is recorded, or the wait is refused. -/
theorem Local.associate {kind : Kind} {m : μ}
    (holds : Local recursive owners c s (.associate kind m)) (fine : Global recursive owners s)
    {choice : Choice μ}
    (taken : turn recursive c choice s (.associate kind m) = some (s', place')) :
    Fine recursive owners c s s' place' := by
  have notListed := holds.notListed fun _ => id
  obtain ⟨count, positive⟩ : (s.mutex m).depth c = s.called c ∧ 0 < s.called c := holds.known
  rw [Cond.turn] at taken
  split at taken
  next fresh =>
    cases taken
    refine @Local.settle _ _ _ _ _ _ _ { s with waiterMutex := some m, used := m :: s.used } _ _
      holds fine owners.cond rfl (fun _ => by simp [Place.mutexAt]) fine.lock holds.cond
      (fun _ _ => .rfl) fine.distinct (fun member => absurd member notListed) (fun _ _ => id)
      (fun other => ?_) (fun other had => ?_) (fun _ same => congrArg some same) (fun _ _ => rfl)
      ⟨count, positive⟩
    · have nobody : other ∉ s.used := fun member => by
        cases fresh.symm.trans ((fine.used other).mpr member)
      simp [nobody, eq_comm]
    · cases fresh.symm.trans had
  next waiterMutex recorded =>
    split at taken
    next =>
      cases taken
      exact holds.still fine (fun _ => rfl) .rfl (fun member => absurd member notListed)
        (fun _ => False.elim) ⟨count, positive⟩
    next same =>
      cases taken
      obtain rfl := not_not.mp same
      refine @Local.settle _ _ _ _ _ _ _ { s with used := waiterMutex :: s.used } _ _ holds fine
        owners.cond rfl (fun _ => by simp [Place.mutexAt]) fine.lock holds.cond (fun _ _ => .rfl)
        fine.distinct (fun member => absurd member notListed) (fun _ _ => id) (fun other => ?_)
        (fun _ => id) (fun _ same => recorded.trans (congrArg some same)) (fun _ _ => rfl)
        ⟨count, positive⟩
      rw [List.mem_cons, ← fine.used other]
      refine ⟨.inr, fun either => either.elim (fun same => ?_) id⟩
      rw [same]
      exact recorded

omit [DecidableEq ι] in
/-- The waitlist gets shorter at its front. -/
theorem Local.dequeue (holds : Local recursive owners c s place) (fine : Global recursive owners s)
    {waitlist : List ι} (fewer : waitlist.Sublist s.waitlist)
    (elsewhere : ∀ m, ¬place.WaitsWith m) (inner : ∀ m, place'.mutexAt m = place.mutexAt m)
    (cond : place'.HoldsCond ↔ place.HoldsCond) (uses : ∀ m, ¬place'.Uses m)
    (known : PlaceAt c { s with waitlist := waitlist } place') :
    Fine recursive owners c s { s with waitlist := waitlist } place' :=
  holds.requeue fine (fine.distinct.sublist fewer) (fun _ _ member => fewer.subset member) inner cond
    (fun member => absurd (fewer.subset member) (holds.notListed elsewhere))
    (fun m here => absurd here (uses m)) known

/-- **Every turn keeps the assertions.** -/
theorem Local.turn (holds : Local recursive owners c s place) (fine : Global recursive owners s)
    {choice : Choice μ} (taken : turn recursive c choice s place = some (s', place')) :
    Fine recursive owners c s s' place' := by
  have known := holds.known
  have uses := holds.uses
  cases place with
  | outside => exact holds.begin fine taken
  | operating operation m inner =>
      have notListed := holds.notListed fun _ => id
      obtain ⟨mutex, inner', ran, rfl, rfl⟩ := call_eq_some taken
      rcases eq_or_ne inner' .outside with rfl | inside
      · exact holds.call fine ran (fun _ => rfl) (fun _ => by simp [Place.mutexAt]) .rfl
          notListed (fun _ => False.elim) trivial
      · rw [if_neg inside]
        exact holds.call fine ran (fun _ => rfl) (fun _ => rfl) .rfl notListed
          (fun _ => False.elim) trivial
  | acquire kind m =>
      obtain ⟨free, taken⟩ := Option.ite_none_left_eq_some.mp taken
      cases taken
      exact holds.acquire fine free (fun _ => rfl) trivial
        (fun member => absurd member (holds.notListed fun _ => id)) (fun _ => False.elim) known
  | associate kind m => exact holds.associate fine taken
  | refuse m =>
      cases taken
      exact holds.release fine trivial fine.distinct (fun _ _ => id) (fun _ => rfl) id
        (fun member => absurd member (holds.notListed fun _ => id))
        (fun _ uses => absurd rfl uses.2) known
  | unlocking kind m inner =>
      have notListed := holds.notListed fun _ => id
      obtain ⟨progress, positive⟩ := known
      obtain ⟨mutex, inner', ran, rfl, rfl⟩ := call_eq_some taken
      rcases progress.turn positive ran with ⟨goesOn, inside⟩ | ⟨rfl, counted⟩
      · rw [if_neg inside]
        refine holds.call fine ran (fun _ => rfl) (fun _ => rfl) .rfl notListed uses ?_
        simpa only [PlaceAt, Function.update_self] using And.intro goesOn positive
      · rw [if_pos rfl]
        refine holds.call fine ran (fun _ => rfl) (fun _ => by simp [Place.mutexAt]) .rfl notListed
          uses ?_
        simpa only [PlaceAt, Function.update_self] using counted
  | enqueue kind m =>
      have notListed := holds.notListed fun _ => id
      have distinct : (s.waitlist ++ [c]).Nodup :=
        List.nodup_append_comm.mpr (List.nodup_cons.mpr ⟨notListed, fine.distinct⟩)
      have others : ∀ d, d ≠ c → d ∈ s.waitlist ++ [c] → d ∈ s.waitlist :=
        fun d different member => by simpa [different] using member
      rw [Cond.turn] at taken
      split at taken
      next =>
        cases taken
        exact holds.requeue fine distinct others (fun _ => rfl) .rfl (fun _ => ⟨m, rfl⟩) uses known
      next =>
        cases taken
        exact holds.release fine trivial distinct others (fun _ => rfl) id (fun _ => ⟨m, rfl⟩) uses
          known
  | waiting kind m =>
      rw [Cond.turn] at taken
      split at taken
      next left =>
        cases taken
        exact holds.still fine (fun _ => by simp [Place.mutexAt]) .rfl
          (fun member => absurd member left) uses known
      next =>
        obtain ⟨-, taken⟩ := Option.ite_none_right_eq_some.mp taken
        cases taken
        exact holds.still fine (fun _ => rfl) .rfl (fun _ => ⟨m, rfl⟩) uses known
  | reacquire kind m =>
      obtain ⟨free, taken⟩ := Option.ite_none_left_eq_some.mp taken
      cases taken
      exact holds.acquire fine free (fun _ => rfl) trivial (fun _ => ⟨m, rfl⟩) uses known
  | check kind m =>
      rw [Cond.turn] at taken
      split at taken
      next =>
        cases taken
        exact holds.still fine (fun _ => rfl) .rfl (fun _ => ⟨m, rfl⟩) uses known
      next =>
        split at taken
        next left =>
          cases taken
          exact holds.release fine trivial fine.distinct (fun _ _ => id)
            (fun _ => by simp [Place.mutexAt]) id (fun member => absurd member left) uses known
        next =>
          cases taken
          exact holds.release fine trivial fine.distinct (fun _ _ => id) (fun _ => rfl) id
            (fun _ => ⟨m, rfl⟩) uses known
  | leave m =>
      cases taken
      exact holds.release fine trivial (fine.distinct.erase c)
        (fun _ _ member => List.mem_of_mem_erase member) (fun _ => by simp [Place.mutexAt]) id
        (fun member => absurd member fine.distinct.not_mem_erase) uses known
  | relocking m result inner =>
      have notListed := holds.notListed fun _ => id
      obtain ⟨mutex, inner', ran, rfl, rfl⟩ := call_eq_some taken
      rcases Mutex.LockTo.turn known ran with ⟨goesOn, inside⟩ | ⟨rfl, counted⟩
      · rw [if_neg inside]
        refine holds.call fine ran (fun _ => rfl) (fun _ => rfl) .rfl notListed uses ?_
        simpa only [PlaceAt, Function.update_self] using goesOn
      · rw [if_pos rfl]
        refine holds.call fine ran (fun _ => rfl) (fun _ => by simp [Place.mutexAt]) .rfl notListed
          (fun other uses' => uses other uses'.1) ?_
        simpa only [PlaceAt, Function.update_self] using And.intro counted (Mutex.LockTo.pos known)
  | returning m result =>
      cases taken
      exact holds.still fine (fun _ => rfl) .rfl
        (fun member => absurd member (holds.notListed fun _ => id)) (fun _ => False.elim) trivial
  | signalAcquire | broadcastAcquire =>
      obtain ⟨free, taken⟩ := Option.ite_none_left_eq_some.mp taken
      cases taken
      exact holds.acquire fine free (fun _ => rfl) trivial
        (fun member => absurd member (holds.notListed fun _ => id)) (fun _ => False.elim) trivial
  | signal =>
      cases taken
      exact holds.dequeue fine (List.tail_sublist _) (fun _ => id) (fun _ => rfl) .rfl (fun _ => id)
        trivial
  | broadcast =>
      rw [Cond.turn] at taken
      split at taken
      next =>
        cases taken
        exact holds.still fine (fun _ => rfl) .rfl
          (fun member => absurd member (holds.notListed fun _ => id)) (fun _ => False.elim) trivial
      next first rest waitlist =>
        cases taken
        exact holds.dequeue fine (waitlist ▸ List.sublist_cons_self first rest) (fun _ => id)
          (fun _ => rfl) .rfl (fun _ => id) trivial
  | release =>
      cases taken
      exact holds.release fine trivial fine.distinct (fun _ _ => id) (fun _ => rfl) id
        (fun member => absurd member (holds.notListed fun _ => id)) (fun _ => False.elim) trivial

end Turn

theorem Local.of_reachable {recursive : μ → Bool} {world : World ι (State ι μ) (Place μ)}
    (reachable : (conds ι recursive).Reachable Machine.anyEvent world) :
    ∃ owners, Global recursive owners world.shared ∧
      ∀ c, Local recursive owners c world.shared (world.place c) := by
  refine Callers.invariant (Global recursive) (Local recursive) ?_ ?_ reachable
  · rintro world ⟨mutexes, lock, waiterMutex, waitlist, used, outside⟩
    choose inner fine locals using fun m => @Mutex.Local.of_begins _ (recursive m) _ (mutexes m)
    refine ⟨⟨inner, none⟩, ⟨fine, lock, by simp [waitlist], by simp [waiterMutex, used]⟩,
      fun c => ?_⟩
    rw [outside c]
    exact ⟨fun m => locals m c, iff_of_false nofun id, fun listed => by simp [waitlist] at listed,
      fun _ => False.elim, trivial⟩
  · rintro owners world c choice shared place - fine holds taken
    obtain ⟨owners', fine', mine, others⟩ := (holds c).turn fine taken
    exact ⟨owners', fine', mine, fun d different other kept => kept.mono (others d different)⟩

/-! ## The mutex of a wait -/

omit [DecidableEq ι] in
/-- One of the mutexes with the callers. -/
def onMutex (world : World ι (State ι μ) (Place μ)) (m : μ) :
    World ι (Mutex.State ι) Mutex.Place where
  shared := world.shared.mutex m
  place c := (world.place c).mutexAt m

omit [DecidableEq ι] in
/-- The caller does not hold the mutex, and only another holder keeps anyone from locking it. -/
structure Released (world : World ι (State ι μ) (Place μ)) (m : μ) (c : ι) : Prop where
  notHeld : ¬Mutex.Holds (onMutex world m) c
  free : (∀ d, d ≠ c → ¬Mutex.Holds (onMutex world m) d) → (world.shared.mutex m).lock = false

omit [DecidableEq ι] in
/-- A caller in the waitlist has released its mutex just when it had locked it once, and a wait
returns with the mutex locked as often as before. -/
structure Releases (world : World ι (State ι μ) (Place μ)) : Prop where
  released : ∀ c m, c ∈ world.shared.waitlist → (world.place c).WaitsWith m →
    (Released world m c ↔ world.shared.called c = 1)
  returned : ∀ c m result, world.place c = .returning m result →
    (world.shared.mutex m).depth c = world.shared.called c ∧ 0 < world.shared.called c

section Waits

variable {recursive : μ → Bool} {owners : Owners ι μ} {world : World ι (State ι μ) (Place μ)}
  {c : ι} {m : μ}

omit [DecidableEq ι] [DecidableEq μ] in
/-- A caller that waits has locked the mutex once less than before. -/
theorem PlaceAt.waits {s : State ι μ} {place : Place μ} (known : PlaceAt c s place)
    (waits : place.WaitsWith m) : (s.mutex m).depth c + 1 = s.called c := by
  cases place with
  | waiting | reacquire | check | leave =>
      obtain rfl : _ = m := waits
      exact known
  | _ => exact waits.elim

omit [DecidableEq ι] in
/-- A caller that waits is in no operation on a mutex. -/
theorem Place.WaitsWith.mutexAt {place : Place μ} (waits : place.WaitsWith m) :
    place.mutexAt m = .outside := by
  cases place with
  | waiting | reacquire | check | leave => rfl
  | _ => exact waits.elim

omit [DecidableEq ι] in
theorem released_iff_of_local (fine : Global recursive owners world.shared)
    (locals : ∀ c, Local recursive owners c world.shared (world.place c))
    (waits : (world.place c).WaitsWith m) :
    Released world m c ↔ world.shared.called c = 1 := by
  have count := (locals c).known.waits waits
  have excludes : Mutex.Excludes (recursive m) (onMutex world m) :=
    .of_local (fine.mutex m) fun d => (locals d).mutex m
  have held : Mutex.Holds (onMutex world m) c ↔ 0 < (world.shared.mutex m).depth c := by
    change (Place.mutexAt m (world.place c)).HoldsLock ∨ _ ↔ _
    rw [waits.mutexAt]
    exact or_iff_right id
  have once : world.shared.called c = 1 ↔ ¬0 < (world.shared.mutex m).depth c := by omega
  rw [once, ← held]
  refine ⟨fun released => released.notHeld, fun notHeld => ⟨notHeld, fun noOther => ?_⟩⟩
  refine eq_false_of_ne_true fun locked => ?_
  obtain ⟨d, holds⟩ := excludes.locked.mp locked
  rcases eq_or_ne d c with rfl | different
  · exact notHeld holds
  · exact noOther d different holds

end Waits

/-- **A wait releases a mutex that its caller had locked once, and no other one.** -/
theorem wait_releases_iff {ι : Type u} {μ : Type v} [DecidableEq ι] [DecidableEq μ]
    {recursive : μ → Bool} {world : World ι (State ι μ) (Place μ)}
    (reachable : (conds ι recursive).Reachable Machine.anyEvent world) : Releases world := by
  obtain ⟨owners, fine, locals⟩ := Local.of_reachable reachable
  refine ⟨fun c m _ waits => released_iff_of_local fine locals waits, fun c m result here => ?_⟩
  have known := (locals c).known
  rw [here] at known
  exact known

/-- A condition variable and free mutexes. -/
def allOutside (ι : Type u) (μ : Type v) : World ι (State ι μ) (Place μ) where
  shared :=
    ⟨false, none, [], fun _ => ⟨false, false, [], 0, none, fun _ => 0⟩, [], fun _ => 0⟩
  place _ := .outside

omit [DecidableEq ι] [DecidableEq μ] in
theorem begins_allOutside : Begins (allOutside ι μ) :=
  ⟨fun _ => ⟨rfl, rfl, rfl, rfl, rfl, fun _ => rfl, fun _ => rfl⟩, rfl, rfl, rfl, rfl, fun _ => rfl⟩

/-- The first of two callers locks a recursive mutex once and waits, and the second one locks the
mutex meanwhile. -/
theorem wait_releases_iff_once :
    ∃ world : World (Fin 2) (State (Fin 2) Unit) (Place Unit), Releases world ∧
      world.shared.waitlist = [0] ∧ world.shared.called 0 = 1 ∧
        (world.shared.mutex ()).depth 1 = 1 := by
  obtain ⟨world, reachable, places⟩ := Machine.exists_reachable_of_play Machine.anyEvent
    (M := conds (Fin 2) fun _ : Unit => true) (s := allOutside (Fin 2) Unit) begins_allOutside
    (List.replicate 4 (0, ⟨.mutex .lock (), false⟩) ++
      List.replicate 11 (0, ⟨.wait .ult (), false⟩) ++
      List.replicate 4 (1, ⟨.mutex .lock (), false⟩))
    (fun world => world.shared.waitlist = [0] ∧ world.shared.called 0 = 1 ∧
      (world.shared.mutex ()).depth 1 = 1) (by decide)
  exact ⟨world, wait_releases_iff reachable, of_decide_eq_true places⟩

/-- A caller that has locked a recursive mutex twice waits with the mutex held. -/
theorem not_released_twice :
    ¬∀ world, (conds (Fin 2) fun _ : Unit => true).Reachable Machine.anyEvent world →
      ∀ c m, c ∈ world.shared.waitlist → (world.place c).WaitsWith m → Released world m c := by
  intro released
  obtain ⟨world, reachable, facts⟩ := Machine.exists_reachable_of_play Machine.anyEvent
    (M := conds (Fin 2) fun _ : Unit => true) (s := allOutside (Fin 2) Unit) begins_allOutside
    (List.replicate 7 (0, ⟨.mutex .lock (), false⟩) ++
      List.replicate 7 (0, ⟨.wait .ult (), false⟩))
    (fun world => world.shared.waitlist = [0] ∧ world.place 0 = .waiting .ult () ∧
      (world.shared.mutex ()).depth 0 = 1) (by decide)
  obtain ⟨waitlist, place, depth⟩ := of_decide_eq_true facts
  refine (released world reachable 0 () (by simp [waitlist]) (by rw [place]; rfl)).notHeld (.inr ?_)
  change 0 < (world.shared.mutex ()).depth 0
  rw [depth]
  exact Nat.one_pos

/-- What a wait is called with: a plain mutex is locked once, and the nesting count of a recursive
one is one less than how often it is locked. -/
theorem called_of_wait {ι : Type u} {μ : Type v} [DecidableEq ι] [DecidableEq μ]
    {recursive : μ → Bool} {world : World ι (State ι μ) (Place μ)}
    (reachable : (conds ι recursive).Reachable Machine.anyEvent world) {c : ι} {kind : Kind} {m : μ}
    {late : Bool} {shared : State ι μ} {place : Place μ}
    (calls : turn recursive c ⟨.wait kind m, late⟩ world.shared .outside = some (shared, place)) :
    (recursive m = false → shared.called c = 1) ∧
      (recursive m = true → shared.called c = (world.shared.mutex m).nestingCnt + 1 ∧
        (world.shared.mutex m).nestingCnt ≤ 1) := by
  obtain ⟨owners, fine, -⟩ := Local.of_reachable reachable
  obtain ⟨⟨deep, passed⟩, result⟩ := Option.ite_none_right_eq_some.mp calls
  cases result
  have positive := Nat.pos_of_ne_zero deep
  have called : Function.update world.shared.called c ((world.shared.mutex m).depth c) c =
      (world.shared.mutex m).depth c := Function.update_self ..
  refine ⟨fun plain => ?_, fun isRecursive => ⟨?_, ?_⟩⟩
  · exact called.trans (Nat.le_antisymm ((fine.mutex m).plain plain c) positive)
  · exact called.trans ((fine.mutex m).nesting isRecursive c positive).symm
  · simpa [passes, isRecursive] using (Bool.and_eq_true_iff.mp passed).2

/-! ## The mutex of a condition variable -/

/-- The wait goes on with the mutex when it gets to the record. -/
def Accepts (recursive : μ → Bool) (c : ι) (kind : Kind) (m : μ) (s : State ι μ) : Prop :=
  ∃ choice shared,
    turn recursive c choice s (.associate kind m) = some (shared, .unlocking kind m .outside)

/-- The wait returns the error, and changes nothing but the lock that it has taken. -/
def Refuses (recursive : μ → Bool) (c : ι) (kind : Kind) (m : μ) (s : State ι μ) : Prop :=
  ∀ choice, turn recursive c choice s (.associate kind m) = some (s, .refuse m) ∧
    turn recursive c choice s (.refuse m) = some ({ s with lock := false }, .returning m .invMutex)

theorem accepts_iff {recursive : μ → Bool} {c : ι} {kind : Kind} {m : μ} {s : State ι μ} :
    Accepts recursive c kind m s ↔ ∀ other, s.waiterMutex = some other → other = m := by
  have anyChoice : Nonempty (Choice μ) := ⟨⟨.signal, false⟩⟩
  rw [Accepts]
  simp only [turn]
  cases s.waiterMutex with
  | none => simp
  | some waiterMutex =>
      rcases eq_or_ne waiterMutex m with rfl | different
      · simp
      · simp [different]

theorem refuses_of_recorded {recursive : μ → Bool} {c : ι} {kind : Kind} {m other : μ}
    {s : State ι μ} (recorded : s.waiterMutex = some other) (different : m ≠ other) :
    Refuses recursive c kind m s := by
  intro choice
  refine ⟨?_, rfl⟩
  simp [turn, recorded, different.symm]

/-- A wait is accepted just when the waits accepted before were with the same mutex, and a wait
with another mutex than that of a waiter is refused. -/
structure Associates (recursive : μ → Bool) (world : World ι (State ι μ) (Place μ)) : Prop where
  accepts : ∀ c kind m,
    Accepts recursive c kind m world.shared ↔ ∀ other ∈ world.shared.used, other = m
  refuses : ∀ c d kind m other, (world.place d).Uses other → m ≠ other →
    Refuses recursive c kind m world.shared

/-- **The first mutex of a condition variable stays with it.** -/
theorem wait_accepted_iff {ι : Type u} {μ : Type v} [DecidableEq ι] [DecidableEq μ]
    {recursive : μ → Bool} {world : World ι (State ι μ) (Place μ)}
    (reachable : (conds ι recursive).Reachable Machine.anyEvent world) :
    Associates recursive world := by
  obtain ⟨owners, fine, locals⟩ := Local.of_reachable reachable
  refine ⟨fun c kind m => ?_, fun c d kind m other uses different => ?_⟩
  · simp only [accepts_iff, fine.used]
  · exact refuses_of_recorded ((locals d).uses other uses) different

/-- The events of a wait that times out. -/
def timedWait (c m : Fin 2) : List (Fin 2 × Choice (Fin 2)) :=
  List.replicate 3 (c, ⟨.mutex .lock m, false⟩) ++
    List.replicate 17 (c, ⟨.wait (.timed false) m, true⟩)

/-- A caller waits with a mutex until its time is over, and begins another wait with it. -/
theorem wait_accepted_iff_again :
    ∃ world : World (Fin 2) (State (Fin 2) (Fin 2)) (Place (Fin 2)),
      Associates (fun _ => false) world ∧ world.place 0 = .associate (.timed false) 0 ∧
        world.shared.used = [0] := by
  obtain ⟨world, reachable, facts⟩ := Machine.exists_reachable_of_play Machine.anyEvent
    (M := conds (Fin 2) fun _ : Fin 2 => false) (s := allOutside (Fin 2) (Fin 2)) begins_allOutside
    (timedWait 0 0 ++ List.replicate 2 (0, ⟨.wait (.timed false) 0, true⟩))
    (fun world => world.place 0 = .associate (.timed false) 0 ∧ world.shared.used = [0])
    (by decide)
  exact ⟨world, wait_accepted_iff reachable, of_decide_eq_true facts⟩

/-- A caller has waited with a mutex until its time was over.  Nobody is in a wait when it begins
one with another mutex, which is refused. -/
theorem not_accepted_other :
    ¬∀ world, (conds (Fin 2) fun _ : Fin 2 => false).Reachable Machine.anyEvent world →
      ∀ c kind m, world.place c = .associate kind m → (∀ d, d ≠ c → ¬(world.place d).InWait) →
        Accepts (fun _ => false) c kind m world.shared := by
  intro accepts
  obtain ⟨world, reachable, facts⟩ := Machine.exists_reachable_of_play Machine.anyEvent
    (M := conds (Fin 2) fun _ : Fin 2 => false) (s := allOutside (Fin 2) (Fin 2)) begins_allOutside
    (timedWait 0 0 ++ List.replicate 3 (0, ⟨.mutex .lock 1, false⟩) ++
      List.replicate 2 (0, ⟨.wait (.timed false) 1, true⟩))
    (fun world => world.place 0 = .associate (.timed false) 1 ∧ world.place 1 = .outside ∧
      world.shared.waiterMutex = some 0) (by decide)
  obtain ⟨here, other, recorded⟩ := of_decide_eq_true facts
  have nobody : ∀ d, d ≠ 0 → ¬(world.place d).InWait := fun d different => by
    obtain rfl : d = 1 := by omega
    rw [other]
    exact id
  have same := accepts_iff.mp (accepts world reachable 0 _ 1 here nobody) 0 recorded
  exact absurd same (by decide)

end ArgobotsReduction.Sync.Cond
