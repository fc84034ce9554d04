import ArgobotsReduction.Parallel.Observers

/-!
# Futures

A future has a number of compartments.  A set puts its value into the next one under the
lock, the set of the last one runs the callback on the array before it stores the counter,
and then wakes all waiters.  A test reads the counter without the lock.  A reset only
clears the counter: a caller that waits over a reset waits for the next cycle.

The waitlist is the queue of its waiters (`Waitlist.WellFormed`), and a caller that
waits is woken when it is in it no more.  The values of the sets since the last reset
and those of the completed cycles are recorded beside the future, and no operation
reads them.  A set is successful from the store of the counter on.

An observer sees what the turns of a call add to the values and whether they clear them
(`Record`).  A set that returns success has added its value and nothing else, one that fails
has added nothing, and a reset that returns has cleared the values and the counter (`Done`).
-/

set_option autoImplicit false

namespace ArgobotsReduction.Sync.Future

open Parallel

universe u v

/-- `ABTI_future`.  A compartment that has not been set since the future was created has no
value.  `values` are those set since the last reset, `cycles` those of the completed
cycles, and `callbacks` what the callback has received. -/
structure State (ι : Type u) (Value : Type v) where
  lock : Bool
  counter : ℕ
  array : List (Option Value)
  waitlist : List ι
  values : List Value
  cycles : List (List Value)
  callbacks : List (List (Option Value))

/-- The operations on a future. -/
inductive Operation (Value : Type v) where
  | set (value : Value)
  | wait
  | test
  | reset

/-- What an operation returns. -/
inductive Result where
  | success
  | error
  | tested (isReady : Bool)
  deriving DecidableEq

/-- The places of the operations, with the local values of a set. -/
inductive Place (Value : Type v) where
  | outside (result : Option Result)
  | setAcquire (value : Value)
  | setLoad (value : Value)
  | setFail
  | write (value : Value) (counter : ℕ)
  | callback (value : Value) (counter : ℕ)
  | store (value : Value) (counter : ℕ)
  | broadcast
  | setRelease
  | waitAcquire
  | waitLoad
  | waiting
  | waitRelease
  | testLoad
  | resetAcquire
  | clear
  | resetRelease
  deriving DecidableEq

variable {ι : Type u} {Value : Type v}

/-- `ABT_future_test` finds the future ready. -/
def Ready (numCompartments : ℕ) (s : State ι Value) : Prop := s.counter = numCompartments

instance (numCompartments : ℕ) (s : State ι Value) : Decidable (Ready numCompartments s) :=
  inferInstanceAs (Decidable (_ = _))

/-- A set has been successful. -/
def State.record (numCompartments : ℕ) (s : State ι Value) (value : Value) : State ι Value :=
  { s with
    values := s.values ++ [value]
    cycles := if s.values.length + 1 = numCompartments then s.cycles ++ [s.values ++ [value]]
      else s.cycles }

/-- A turn in an operation. -/
def turn [DecidableEq ι] (numCompartments : ℕ) (hasCallback : Bool) (c : ι)
    (operation : Operation Value) (s : State ι Value) :
    Place Value → Option (State ι Value × Place Value)
  | .outside _ =>
      match operation with
      | .set value => some (s, .setAcquire value)
      | .wait => some (s, .waitAcquire)
      | .test => some (s, .testLoad)
      | .reset => some (s, .resetAcquire)
  | .setAcquire value => if s.lock then none else some ({ s with lock := true }, .setLoad value)
  | .setLoad value =>
      some (s, if numCompartments ≤ s.counter then .setFail else .write value s.counter)
  | .setFail => some ({ s with lock := false }, .outside (some .error))
  | .write value counter =>
      some ({ s with array := s.array.set counter (some value) },
        if counter + 1 = numCompartments ∧ hasCallback = true then .callback value (counter + 1)
        else .store value (counter + 1))
  | .callback value counter =>
      some ({ s with callbacks := s.callbacks ++ [s.array] }, .store value counter)
  | .store value counter =>
      some (State.record numCompartments { s with counter := counter } value,
        if counter = numCompartments then .broadcast else .setRelease)
  | .broadcast =>
      match s.waitlist with
      | [] => some (s, .setRelease)
      | _ :: rest => some ({ s with waitlist := rest }, .broadcast)
  | .setRelease => some ({ s with lock := false }, .outside (some .success))
  | .waitAcquire => if s.lock then none else some ({ s with lock := true }, .waitLoad)
  | .waitLoad =>
      if s.counter < numCompartments then
        some ({ s with waitlist := s.waitlist ++ [c], lock := false }, .waiting)
      else some (s, .waitRelease)
  | .waiting => if c ∈ s.waitlist then none else some (s, .outside (some .success))
  | .waitRelease => some ({ s with lock := false }, .outside (some .success))
  | .testLoad => some (s, .outside (some (.tested (decide (Ready numCompartments s)))))
  | .resetAcquire => if s.lock then none else some ({ s with lock := true }, .clear)
  | .clear => some ({ s with counter := 0, values := [] }, .resetRelease)
  | .resetRelease => some ({ s with lock := false }, .outside (some .success))

/-- Callers of a future. -/
def calls (ι : Type u) (Value : Type v) [DecidableEq ι] (numCompartments : ℕ) (hasCallback : Bool) :
    Callers ι (State ι Value) (Place Value) (Operation Value) where
  turn c operation s place := turn numCompartments hasCallback c operation s place

/-- `ABT_future_create` -/
def Begins (numCompartments : ℕ) (world : World ι (State ι Value) (Place Value)) : Prop :=
  world.shared = ⟨false, 0, List.replicate numCompartments none, [], [], [], []⟩ ∧
    ∀ c, world.place c = .outside none

/-- A future with its callers. -/
def futures (ι : Type u) (Value : Type v) [DecidableEq ι] (numCompartments : ℕ)
    (hasCallback : Bool) : Machine (World ι (State ι Value) (Place Value)) (ι × Operation Value) :=
  (calls ι Value numCompartments hasCallback).machine (Begins numCompartments)

/-! ## Assertions -/

/-- The caller has the lock at the place. -/
def Place.Holds : Place Value → Prop
  | .setLoad _ | .setFail | .write _ _ | .callback _ _ | .store _ _ | .broadcast | .setRelease
  | .waitLoad | .waitRelease | .clear | .resetRelease => True
  | _ => False

/-- What the callback has received when it has run once for each of the cycles. -/
def received (hasCallback : Bool) (cycles : List (List Value)) : List (List (Option Value)) :=
  if hasCallback then cycles.map fun values => values.map some else []

/-- The counter, the array and the values agree. -/
structure Data (numCompartments : ℕ) (s : State ι Value) : Prop where
  counter : s.counter = s.values.length
  bounded : s.values.length ≤ numCompartments
  length : s.array.length = numCompartments
  stored : s.array.take s.values.length = s.values.map some
  complete : ∀ values ∈ s.cycles, values.length = numCompartments ∧ values ≠ []

/-- The callback has run for all completed cycles. -/
def Called (hasCallback : Bool) (s : State ι Value) : Prop :=
  s.callbacks = received hasCallback s.cycles

/-- No waiter has been forgotten. -/
def Woken (numCompartments : ℕ) (s : State ι Value) : Prop :=
  Ready numCompartments s → s.waitlist = []

/-- The value is in the next compartment. -/
def Written (s : State ι Value) (value : Value) : Prop :=
  s.array.take (s.values.length + 1) = (s.values ++ [value]).map some

/-- What a caller knows at its place. -/
def PlaceAt (numCompartments : ℕ) (hasCallback : Bool) (s : State ι Value) : Place Value → Prop
  | .setLoad _ | .setRelease | .waitLoad | .clear | .resetRelease =>
      Called hasCallback s ∧ Woken numCompartments s
  | .setFail => Called hasCallback s ∧ Woken numCompartments s ∧ s.values.length = numCompartments
  | .waitRelease => Called hasCallback s ∧ Woken numCompartments s ∧ Ready numCompartments s
  | .write _ counter => Called hasCallback s ∧ counter = s.values.length ∧ counter < numCompartments
  | .callback value counter =>
      Called hasCallback s ∧ Written s value ∧ counter = s.values.length + 1 ∧
        counter = numCompartments ∧ hasCallback = true
  | .store value counter =>
      Written s value ∧ counter = s.values.length + 1 ∧ counter ≤ numCompartments ∧
        s.callbacks = received hasCallback
          (if counter = numCompartments then s.cycles ++ [s.values ++ [value]] else s.cycles)
  | .broadcast => Called hasCallback s ∧ Ready numCompartments s
  | _ => True

/-- The assertion of a caller. -/
structure Local (numCompartments : ℕ) (hasCallback : Bool) (holder : Option ι) (c : ι)
    (s : State ι Value) (place : Place Value) : Prop where
  holder : holder = some c ↔ place.Holds
  listed : c ∈ s.waitlist → place = .waiting
  known : PlaceAt numCompartments hasCallback s place

/-- What is shared agrees with the holder of the lock. -/
structure Global (numCompartments : ℕ) (hasCallback : Bool) (holder : Option ι)
    (s : State ι Value) : Prop where
  lock : s.lock = holder.isSome
  data : Data numCompartments s
  idle : holder = none → Called hasCallback s ∧ Woken numCompartments s

/-! ## One turn -/

section Turn

variable {numCompartments : ℕ} {hasCallback : Bool} {holder holder' : Option ι} {c d : ι}
  {s s' : State ι Value} {place place' : Place Value}

/-- What a turn of another caller leaves to a caller. -/
structure Keeps (holder holder' : Option ι) (s s' : State ι Value) (d : ι) : Prop where
  held : holder' = some d ↔ holder = some d
  listed : d ∈ s'.waitlist → d ∈ s.waitlist
  same : holder = some d → s' = s

theorem Local.mono (keeps : Keeps holder holder' s s' d)
    (holds : Local numCompartments hasCallback holder d s place) :
    Local numCompartments hasCallback holder' d s' place where
  holder := keeps.held.trans holds.holder
  listed listed := holds.listed (keeps.listed listed)
  known := by
    have known := holds.known
    by_cases held : place.Holds
    · rw [keeps.same (holds.holder.mpr held)]
      exact known
    · cases place with
      | outside _ | setAcquire _ | waitAcquire | waiting | testLoad | resetAcquire => trivial
      | _ => exact absurd trivial held

/-- What a turn has to establish. -/
def Fine (numCompartments : ℕ) (hasCallback : Bool) (holder : Option ι) (c : ι)
    (s s' : State ι Value) (place' : Place Value) : Prop :=
  ∃ holder', Global numCompartments hasCallback holder' s' ∧
    Local numCompartments hasCallback holder' c s' place' ∧
      ∀ d, d ≠ c → Keeps holder holder' s s' d

/-- A turn without the lock, which changes nothing that is shared. -/
theorem Local.still (holds : Local numCompartments hasCallback holder c s place)
    (fine : Global numCompartments hasCallback holder s) (free : ¬place.Holds)
    (free' : ¬place'.Holds) (listed : c ∉ s.waitlist)
    (known : PlaceAt numCompartments hasCallback s place') :
    Fine numCompartments hasCallback holder c s s place' :=
  ⟨holder, fine, ⟨holds.holder.trans (iff_of_false free free'), fun member => absurd member listed,
    known⟩, fun _ _ => ⟨.rfl, id, fun _ => rfl⟩⟩

/-- The caller takes the lock. -/
theorem Local.acquire (_ : Local numCompartments hasCallback holder c s place)
    (fine : Global numCompartments hasCallback holder s) (free : ¬s.lock = true)
    (held : place'.Holds) (listed : c ∉ s.waitlist)
    (known : Called hasCallback s ∧ Woken numCompartments s →
      PlaceAt numCompartments hasCallback { s with lock := true } place') :
    Fine numCompartments hasCallback holder c s { s with lock := true } place' := by
  obtain rfl : holder = none := by simpa [fine.lock] using free
  exact ⟨some c, ⟨rfl, ⟨fine.data.counter, fine.data.bounded, fine.data.length,
      fine.data.stored, fine.data.complete⟩,
      nofun⟩,
    ⟨iff_of_true rfl held, fun member => absurd member listed, known (fine.idle rfl)⟩,
    fun d different => ⟨by simp [different.symm], id, nofun⟩⟩

/-- The holder of the lock changes what is shared. -/
theorem Local.change (holds : Local numCompartments hasCallback holder c s place)
    (fine : Global numCompartments hasCallback holder s) (held : place.Holds)
    (held' : place'.Holds) (lock : s'.lock = s.lock) (data : Data numCompartments s')
    (listed : ∀ d, d ∈ s'.waitlist → d ∈ s.waitlist)
    (known : PlaceAt numCompartments hasCallback s' place') :
    Fine numCompartments hasCallback holder c s s' place' := by
  obtain rfl := holds.holder.mpr held
  refine ⟨some c, ⟨lock.trans fine.lock, data, nofun⟩, ⟨iff_of_true rfl held', fun member => ?_,
    known⟩, fun d different => ⟨.rfl, listed d, fun theirs => ?_⟩⟩
  · obtain rfl := holds.listed (listed c member)
    exact held.elim
  · exact absurd (Option.some.inj theirs).symm different

/-- The caller releases the lock, where it may have got into the waitlist. -/
theorem Local.release (holds : Local numCompartments hasCallback holder c s place)
    (fine : Global numCompartments hasCallback holder s) (held : place.Holds)
    (free : ¬place'.Holds) {waitlist : List ι}
    (others : ∀ d, d ≠ c → d ∈ waitlist → d ∈ s.waitlist)
    (listed : c ∈ waitlist → place' = .waiting) (called : Called hasCallback s)
    (woken : Ready numCompartments s → waitlist = [])
    (known : PlaceAt numCompartments hasCallback
      { s with waitlist := waitlist, lock := false } place') :
    Fine numCompartments hasCallback holder c s { s with waitlist := waitlist, lock := false }
      place' := by
  obtain rfl := holds.holder.mpr held
  exact ⟨none, ⟨rfl, ⟨fine.data.counter, fine.data.bounded, fine.data.length,
      fine.data.stored, fine.data.complete⟩,
      fun _ => ⟨called, woken⟩⟩,
    ⟨iff_of_false nofun free, listed, known⟩,
    fun d different => ⟨iff_of_false nofun fun same => different (Option.some.inj same).symm,
      others d different, fun theirs => absurd (Option.some.inj theirs).symm different⟩⟩

theorem Data.counter_le (data : Data numCompartments s) : s.counter ≤ numCompartments :=
  data.counter ▸ data.bounded

/-- What the callback receives for one more cycle. -/
theorem received_append (cycles : List (List Value)) (values : List Value) :
    received hasCallback (cycles ++ [values]) =
      received hasCallback cycles ++ if hasCallback = true then [values.map some] else [] := by
  cases hasCallback with
  | true => exact List.map_append
  | false => rfl

/-- The set writes its value into the next compartment. -/
theorem Data.write (data : Data numCompartments s) (more : s.values.length < numCompartments)
    (value : Value) :
    Data numCompartments { s with array := s.array.set s.values.length (some value) } ∧
      Written { s with array := s.array.set s.values.length (some value) } value := by
  have inside : s.values.length < s.array.length := by rwa [data.length]
  refine ⟨⟨data.counter, data.bounded, (List.length_set ..).trans data.length, ?_,
    data.complete⟩, ?_⟩
  · exact (List.take_set_of_le (Nat.le_refl _)).trans data.stored
  · change (s.array.set s.values.length (some value)).take (s.values.length + 1) = _
    rw [List.take_add_one, List.take_set_of_le (Nat.le_refl _), data.stored, List.map_append,
      List.getElem?_set_self inside]
    rfl

/-- The set stores the counter. -/
theorem Data.store {value : Value} {counter : ℕ} (data : Data numCompartments s)
    (written : Written s value) (next : counter = s.values.length + 1)
    (bounded : counter ≤ numCompartments) :
    Data numCompartments (State.record numCompartments { s with counter := counter } value) := by
  have length : (s.values ++ [value]).length = counter := by rw [List.length_append, next]; rfl
  refine ⟨length.symm, Nat.le_trans (Nat.le_of_eq length) bounded, data.length, ?_, ?_⟩
  · change s.array.take (s.values ++ [value]).length = (s.values ++ [value]).map some
    rw [length, next]
    exact written
  · intro values member
    change values ∈ (if s.values.length + 1 = numCompartments then s.cycles ++ [s.values ++ [value]]
      else s.cycles) at member
    split at member
    next last =>
      rcases List.mem_append.mp member with earlier | now
      · exact data.complete values earlier
      · obtain rfl := List.mem_singleton.mp now
        exact ⟨length.trans (next.trans last), by simp⟩
    next => exact data.complete values member

/-- The array is the one of a whole cycle. -/
theorem Data.array_eq {value : Value} (data : Data numCompartments s) (written : Written s value)
    (last : s.values.length + 1 = numCompartments) :
    s.array = (s.values ++ [value]).map some := by
  rw [← written, last, ← data.length, List.take_length]

/-- **Every turn keeps the assertions.** -/
theorem Local.turn [DecidableEq ι] (holds : Local numCompartments hasCallback holder c s place)
    (fine : Global numCompartments hasCallback holder s) {operation : Operation Value}
    (taken : turn numCompartments hasCallback c operation s place = some (s', place')) :
    Fine numCompartments hasCallback holder c s s' place' := by
  have known := holds.known
  have notListed : place ≠ .waiting → c ∉ s.waitlist := fun elsewhere listed =>
    elsewhere (holds.listed listed)
  cases place with
  | outside =>
      cases operation <;> cases taken <;>
        exact holds.still fine id id (notListed nofun) trivial
  | setAcquire value =>
      obtain ⟨free, taken⟩ := Option.ite_none_left_eq_some.mp taken
      cases taken
      exact holds.acquire fine free trivial (notListed nofun) id
  | setLoad value =>
      cases taken
      obtain ⟨called, woken⟩ := known
      split
      next full =>
        refine holds.change fine trivial trivial rfl fine.data (fun _ => id) ⟨called, woken, ?_⟩
        rw [fine.data.counter] at full
        exact Nat.le_antisymm fine.data.bounded full
      next more =>
        exact holds.change fine trivial trivial rfl fine.data (fun _ => id)
          ⟨called, fine.data.counter, Nat.lt_of_not_le more⟩
  | setFail =>
      cases taken
      exact holds.release fine trivial id (fun _ _ => id) (fun listed => absurd listed
        (notListed nofun)) known.1 known.2.1 trivial
  | write value counter =>
      cases taken
      obtain ⟨called, rfl, more⟩ := known
      obtain ⟨data, written⟩ := fine.data.write more value
      split
      next last =>
        exact holds.change fine trivial trivial rfl data (fun _ => id)
          ⟨called, written, rfl, last⟩
      next goesOn =>
        refine holds.change fine trivial trivial rfl data (fun _ => id) ⟨written, rfl, more, ?_⟩
        split
        next last =>
          have notGiven : ¬hasCallback = true := fun given => goesOn ⟨last, given⟩
          rw [received_append, if_neg notGiven, List.append_nil]
          exact called
        next => exact called
  | callback value counter =>
      cases taken
      obtain ⟨called, written, rfl, last, given⟩ := known
      refine holds.change fine trivial trivial rfl ⟨fine.data.counter, fine.data.bounded,
        fine.data.length, fine.data.stored, fine.data.complete⟩ (fun _ => id)
        ⟨written, rfl, Nat.le_of_eq last, ?_⟩
      rw [if_pos last, received_append, if_pos given, ← fine.data.array_eq written last]
      exact congrArg (· ++ [s.array]) called
  | store value counter =>
      cases taken
      obtain ⟨written, next, bounded, called⟩ := known
      have data := fine.data.store written next bounded
      have after : Called hasCallback
          (State.record numCompartments { s with counter := counter } value) := by
        rw [next] at called
        exact called
      split
      next last => exact holds.change fine trivial trivial rfl data (fun _ => id) ⟨after, last⟩
      next more =>
        exact holds.change fine trivial trivial rfl data (fun _ => id)
          ⟨after, fun ready => absurd ready more⟩
  | broadcast =>
      obtain ⟨called, ready⟩ := known
      rw [Future.turn] at taken
      split at taken
      next empty =>
        cases taken
        exact holds.change fine trivial trivial rfl fine.data (fun _ => id)
          ⟨called, fun _ => empty⟩
      next first rest waitlist =>
        cases taken
        exact holds.change fine trivial trivial rfl ⟨fine.data.counter, fine.data.bounded,
          fine.data.length, fine.data.stored, fine.data.complete⟩
          (fun d member => waitlist ▸ List.mem_cons_of_mem first member) ⟨called, ready⟩
  | setRelease | resetRelease =>
      cases taken
      exact holds.release fine trivial id (fun _ _ => id)
        (fun listed => absurd listed (notListed nofun)) known.1 known.2 trivial
  | waitRelease =>
      cases taken
      exact holds.release fine trivial id (fun _ _ => id)
        (fun listed => absurd listed (notListed nofun)) known.1 known.2.1 trivial
  | waitAcquire =>
      obtain ⟨free, taken⟩ := Option.ite_none_left_eq_some.mp taken
      cases taken
      exact holds.acquire fine free trivial (notListed nofun) id
  | waitLoad =>
      obtain ⟨called, woken⟩ := known
      rw [Future.turn] at taken
      split at taken
      next more =>
        cases taken
        refine holds.release fine trivial id (fun d different member => ?_) (fun _ => rfl) called
          (fun ready => ?_) trivial
        · simpa [different] using member
        · exact absurd ready (Nat.ne_of_lt more)
      next full =>
        cases taken
        refine holds.change fine trivial trivial rfl fine.data (fun _ => id) ⟨called, woken, ?_⟩
        exact Nat.le_antisymm fine.data.counter_le (Nat.le_of_not_lt full)
  | waiting =>
      obtain ⟨left, taken⟩ := Option.ite_none_left_eq_some.mp taken
      cases taken
      exact holds.still fine id id left trivial
  | testLoad =>
      cases taken
      exact holds.still fine id id (notListed nofun) trivial
  | resetAcquire =>
      obtain ⟨free, taken⟩ := Option.ite_none_left_eq_some.mp taken
      cases taken
      exact holds.acquire fine free trivial (notListed nofun) id
  | clear =>
      cases taken
      obtain ⟨called, woken⟩ := known
      refine holds.change fine trivial trivial rfl ⟨rfl, Nat.zero_le _, fine.data.length, rfl,
        fine.data.complete⟩
        (fun _ => id) ⟨called, fun ready => woken ?_⟩
      have none : numCompartments = 0 := ready.symm
      exact Nat.le_antisymm fine.data.counter_le (none ▸ Nat.zero_le _)

end Turn

section Reachable

variable [DecidableEq ι] {numCompartments : ℕ} {hasCallback : Bool}
  {world next : World ι (State ι Value) (Place Value)} {c d : ι}

theorem Local.of_reachable
    (reachable : (futures ι Value numCompartments hasCallback).Reachable Machine.anyEvent world) :
    ∃ holder, Global numCompartments hasCallback holder world.shared ∧
      ∀ c, Local numCompartments hasCallback holder c world.shared (world.place c) := by
  refine Callers.invariant (Global numCompartments hasCallback)
    (Local numCompartments hasCallback) ?_ ?_ reachable
  · rintro ⟨shared, place⟩ ⟨rfl, outside⟩
    refine ⟨none, ⟨rfl, ⟨rfl, Nat.zero_le _, List.length_replicate, rfl, nofun⟩,
      fun _ => ⟨by cases hasCallback <;> rfl, fun _ => rfl⟩⟩, fun c => ?_⟩
    change Local _ _ _ _ _ (place c)
    rw [show place c = _ from outside c]
    exact ⟨iff_of_false nofun id, nofun, trivial⟩
  · rintro holder world c operation shared place - fine holds taken
    obtain ⟨holder', fine', mine, others⟩ := (holds c).turn fine taken
    exact ⟨holder', fine', mine, fun d different other kept => kept.mono (others d different)⟩

/-- The caller is in a wait at the place. -/
def Place.Waits : Place Value → Bool
  | .waitAcquire | .waitLoad | .waiting | .waitRelease => true
  | _ => false

variable {s s' : State ι Value} {place place' : Place Value} {operation : Operation Value}

/-- What the last turns of a wait, a set and a test have seen. -/
theorem turn_returns
    (taken : turn numCompartments hasCallback c operation s place = some (s', place')) :
    (place' = .waitRelease → s' = s ∧ numCompartments ≤ s.counter) ∧
      (place' = .waiting → c ∈ s'.waitlist) ∧
      (place' = .outside (some .error) → place = .setFail) ∧
      ∀ isReady, place' = .outside (some (.tested isReady)) →
        s' = s ∧ (isReady = true ↔ Ready numCompartments s) := by
  cases place with
  | outside => cases operation <;> cases taken <;> simp
  | setAcquire | waitAcquire | resetAcquire | waiting =>
      obtain ⟨-, taken⟩ := Option.ite_none_left_eq_some.mp taken
      cases taken
      simp
  | waitLoad =>
      rw [turn] at taken
      split at taken
      next =>
        cases taken
        simp
      next full =>
        cases taken
        simpa using Nat.le_of_not_lt full
  | broadcast =>
      rw [turn] at taken
      split at taken <;> cases taken <;> simp
  | setLoad | write | store =>
      cases taken
      split <;> simp
  | _ =>
      cases taken
      simp

/-! ## Runs -/

end Reachable

/-- The counter, the array, the callback and the waitlist are in step. -/
structure InStep (numCompartments : ℕ) (hasCallback : Bool)
    (world : World ι (State ι Value) (Place Value)) : Prop where
  ready : Ready numCompartments world.shared ↔ world.shared.values.length = numCompartments
  bounded : world.shared.values.length ≤ numCompartments
  stored : world.shared.array.take world.shared.values.length = world.shared.values.map some
  complete : ∀ values ∈ world.shared.cycles, values.length = numCompartments ∧ values ≠ []
  callbacks : ∃ current, world.shared.callbacks =
      received hasCallback (world.shared.cycles ++ current) ∧
    (current = [] ∨ ∃ c value, world.place c = .store value numCompartments ∧
      current = [world.shared.values ++ [value]])
  woken : Ready numCompartments world.shared → world.shared.waitlist ≠ [] →
    ∃ c, world.place c = .broadcast
  released : ∀ c, world.place c = .setRelease → Ready numCompartments world.shared →
    world.shared.waitlist = []

/-- What a caller's turn does. -/
structure Acts (numCompartments : ℕ) (past : List (World ι (State ι Value) (Place Value)))
    (world next : World ι (State ι Value) (Place Value)) (c : ι) : Prop where
  writes : ∀ value counter, world.place c = .write value counter →
    counter < world.shared.array.length
  refuses : ∀ value, world.place c = .setLoad value →
    (world.shared.values.length = numCompartments ↔ next.place c = .setFail) ∧
      next.shared = world.shared
  fails : next.place c = .outside (some .error) → world.place c = .setFail ∧
    next.shared = { world.shared with lock := false }
  tested : ∀ isReady, next.place c = .outside (some (.tested isReady)) →
    next.shared = world.shared ∧ (isReady = true ↔ Ready numCompartments world.shared)
  waited : (world.place c).Waits = true → (next.place c).Waits = false →
    ∃ before ∈ (world :: past).takeWhile (fun world => (world.place c).Waits),
      Ready numCompartments before.shared

section Settled

variable {numCompartments : ℕ} {hasCallback : Bool} {s : State ι Value} {place : Place Value}

/-- The callback has run for the completed cycles, and perhaps for the one that is being
completed. -/
theorem PlaceAt.callbacks (known : PlaceAt numCompartments hasCallback s place)
    (held : place.Holds) : ∃ current, s.callbacks = received hasCallback (s.cycles ++ current) ∧
      (current = [] ∨ ∃ value, place = .store value numCompartments ∧
        current = [s.values ++ [value]]) := by
  have called : Called hasCallback s → ∃ current,
      s.callbacks = received hasCallback (s.cycles ++ current) ∧
        (current = [] ∨ ∃ value, place = .store value numCompartments ∧
          current = [s.values ++ [value]]) := fun called =>
    ⟨[], by rw [List.append_nil]; exact called, .inl rfl⟩
  cases place with
  | setLoad | setFail | write | callback | broadcast | setRelease | waitLoad | waitRelease | clear
  | resetRelease => exact called known.1
  | store value counter =>
      obtain ⟨-, -, -, callbacks⟩ := known
      split at callbacks
      next last =>
        subst last
        exact ⟨[s.values ++ [value]], callbacks, .inr ⟨value, rfl, rfl⟩⟩
      next => exact called callbacks
  | _ => exact held.elim

/-- Whoever has the lock of a ready future wakes its waiters, or there is none. -/
theorem PlaceAt.woken (known : PlaceAt numCompartments hasCallback s place)
    (held : place.Holds) (data : Data numCompartments s) (ready : Ready numCompartments s) :
    s.waitlist = [] ∨ place = .broadcast := by
  have full : s.values.length = numCompartments := data.counter.symm.trans ready
  cases place with
  | setLoad | setRelease | waitLoad | clear | resetRelease => exact .inl (known.2 ready)
  | setFail | waitRelease => exact .inl (known.2.1 ready)
  | write value counter =>
      obtain ⟨-, rfl, more⟩ := known
      exact absurd full (Nat.ne_of_lt more)
  | callback value counter =>
      obtain ⟨-, -, next, last, -⟩ := known
      exact absurd (full.trans (last.symm.trans next)) (Nat.ne_of_lt (Nat.lt_succ_self _))
  | store value counter =>
      obtain ⟨-, rfl, more, -⟩ := known
      exact absurd full (Nat.ne_of_lt more)
  | broadcast => exact .inr rfl
  | _ => exact held.elim

end Settled

theorem InStep.of_local {numCompartments : ℕ} {hasCallback : Bool} {holder : Option ι}
    {world : World ι (State ι Value) (Place Value)}
    (fine : Global numCompartments hasCallback holder world.shared)
    (locals : ∀ c, Local numCompartments hasCallback holder c world.shared (world.place c)) :
    InStep numCompartments hasCallback world where
  ready := by rw [Ready, fine.data.counter]
  bounded := fine.data.bounded
  stored := fine.data.stored
  complete := fine.data.complete
  callbacks := by
    cases holder with
    | none => exact ⟨[], by rw [List.append_nil]; exact (fine.idle rfl).1, .inl rfl⟩
    | some c =>
        obtain ⟨current, received, last⟩ :=
          (locals c).known.callbacks ((locals c).holder.mp rfl)
        exact ⟨current, received, last.imp_right fun ⟨value, here, values⟩ =>
          ⟨c, value, here, values⟩⟩
  woken ready waiting := by
    cases holder with
    | none => exact absurd ((fine.idle rfl).2 ready) waiting
    | some c =>
        have known := (locals c).known.woken ((locals c).holder.mp rfl) fine.data ready
        exact ⟨c, known.resolve_left waiting⟩
  released c here ready := by
    have known := (locals c).known
    rw [here] at known
    exact known.2 ready

/-! ## Calls and returns -/

/-- What an observer knows of a caller: its last operation, the values that the turns of this
operation have added, and whether there were no values after one of them. -/
structure Record (Value : Type v) where
  operation : Option (Operation Value)
  added : List Value
  cleared : Bool

/-- A caller is in no operation. -/
def Place.isOutside : Place Value → Bool
  | .outside _ => true
  | _ => false

/-- The observer that looks at the values. -/
def observer : Observer (State ι Value) (Place Value) (Operation Value) (Record Value) where
  idle := Place.isOutside
  called operation _ := ⟨some operation, [], false⟩
  sees s s' record :=
    { record with
      added := record.added ++ s'.values.drop s.values.length
      cleared := record.cleared || (s'.values.isEmpty && s'.counter == 0) }
  returned _ record := record

/-- What an observer has recorded in a run to a state. -/
abbrev Observed [DecidableEq ι] (numCompartments : ℕ) (hasCallback : Bool)
    (world : World ι (State ι Value) (Place Value)) (records : ι → Record Value) : Prop :=
  (calls ι Value numCompartments hasCallback).Observed (Begins numCompartments) observer
    ⟨none, [], false⟩ world records

/-- What an operation has done when it returns. -/
def Done (record : Record Value) (result : Result) : Prop :=
  match record.operation with
  | some (.set value) =>
      result = .success ∧ record.added = [value] ∨ result = .error ∧ record.added = []
  | some .wait => result = .success ∧ record.added = []
  | some .test => (∃ isReady, result = .tested isReady) ∧ record.added = []
  | some .reset => result = .success ∧ record.added = [] ∧ record.cleared = true
  | none => False

/-- What an operation has done at a place. -/
def DoneAt (record : Record Value) : Place Value → Prop
  | .outside none => True
  | .outside (some result) => Done record result
  | .setAcquire value | .setLoad value | .write value _ | .callback value _ | .store value _ =>
      record.operation = some (.set value) ∧ record.added = []
  | .setFail => ∃ value, record.operation = some (.set value) ∧ record.added = []
  | .broadcast | .setRelease =>
      ∃ value, record.operation = some (.set value) ∧ record.added = [value]
  | .waitAcquire | .waitLoad | .waiting | .waitRelease =>
      record.operation = some .wait ∧ record.added = []
  | .testLoad => record.operation = some .test ∧ record.added = []
  | .resetAcquire | .clear => record.operation = some .reset ∧ record.added = []
  | .resetRelease =>
      record.operation = some .reset ∧ record.added = [] ∧ record.cleared = true

section Calls

variable {numCompartments : ℕ} {hasCallback : Bool} {c : ι} {s s' : State ι Value}
  {place place' : Place Value} {operation : Operation Value} {record : Record Value}

/-- An operation begins. -/
theorem watch_call (result : Option Result) (place' : Place Value) :
    observer.watch operation s (.outside result) s place' record =
      ⟨some operation, [], s.values.isEmpty && s.counter == 0⟩ := by
  simp [Observer.watch, observer, Place.isOutside]

/-- A turn in an operation -/
theorem watch_inside (inside : place.isOutside = false) :
    observer.watch operation s place s' place' record =
      { record with
        added := record.added ++ s'.values.drop s.values.length
        cleared := record.cleared || (s'.values.isEmpty && s'.counter == 0) } := by
  simp [Observer.watch, observer, inside]

theorem DoneAt.keep (inside : place.isOutside = false) (values : s'.values = s.values)
    (done : ∀ cleared : Bool, (record.cleared = true → cleared = true) →
      DoneAt { record with cleared := cleared } place') :
    DoneAt (observer.watch operation s place s' place' record) place' := by
  rw [watch_inside inside, values, List.drop_length, List.append_nil]
  exact done _ fun before => by rw [before]; rfl

/-- **Every turn does its part of the operation.** -/
theorem DoneAt.turn [DecidableEq ι] (done : DoneAt record place)
    (taken : turn numCompartments hasCallback c operation s place = some (s', place')) :
    DoneAt (observer.watch operation s place s' place' record) place' := by
  cases place with
  | outside result =>
      cases operation <;> cases taken <;> rw [watch_call] <;> exact ⟨rfl, rfl⟩
  | setAcquire | waitAcquire | resetAcquire =>
      obtain ⟨-, taken⟩ := Option.ite_none_left_eq_some.mp taken
      cases taken
      exact .keep rfl rfl fun _ _ => done
  | setLoad value =>
      cases taken
      refine .keep rfl rfl fun _ _ => ?_
      split
      · exact ⟨value, done⟩
      · exact done
  | setFail =>
      cases taken
      refine .keep rfl rfl fun _ _ => ?_
      obtain ⟨value, asked, added⟩ := done
      simp [DoneAt, Done, asked, added]
  | write value counter =>
      cases taken
      refine .keep rfl rfl fun _ _ => ?_
      split <;> exact done
  | callback =>
      cases taken
      exact .keep rfl rfl fun _ _ => done
  | store value counter =>
      cases taken
      obtain ⟨asked, added⟩ := done
      have stored : (record.added ++ (s.values ++ [value]).drop s.values.length) = [value] := by
        rw [added, List.drop_left, List.nil_append]
      rw [watch_inside rfl]
      split <;> exact ⟨value, asked, stored⟩
  | broadcast =>
      rw [Future.turn] at taken
      split at taken <;> cases taken <;> exact .keep rfl rfl fun _ _ => done
  | setRelease =>
      cases taken
      refine .keep rfl rfl fun _ _ => ?_
      obtain ⟨value, asked, added⟩ := done
      simp [DoneAt, Done, asked, added]
  | waitLoad =>
      rw [Future.turn] at taken
      split at taken <;> cases taken <;> exact .keep rfl rfl fun _ _ => done
  | waiting =>
      obtain ⟨-, taken⟩ := Option.ite_none_left_eq_some.mp taken
      cases taken
      refine .keep rfl rfl fun _ _ => ?_
      simp [DoneAt, Done, done.1, done.2]
  | waitRelease =>
      cases taken
      refine .keep rfl rfl fun _ _ => ?_
      simp [DoneAt, Done, done.1, done.2]
  | testLoad =>
      cases taken
      refine .keep rfl rfl fun _ _ => ?_
      simp [DoneAt, Done, done.1, done.2]
  | clear =>
      cases taken
      obtain ⟨asked, added⟩ := done
      rw [watch_inside rfl]
      exact ⟨asked, by simp [added], by simp⟩
  | resetRelease =>
      cases taken
      obtain ⟨asked, added, cleared⟩ := done
      refine .keep rfl rfl fun _ still => ?_
      simp [DoneAt, Done, asked, added, still cleared]

end Calls

def twoOutside : World (Fin 2) (State (Fin 2) ℕ) (Place ℕ) where
  shared := ⟨false, 0, [none, none], [], [], [], []⟩
  place _ := .outside none

end ArgobotsReduction.Sync.Future
