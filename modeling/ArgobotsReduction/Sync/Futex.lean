import ArgobotsReduction.Containers.TwoWay
import ArgobotsReduction.Parallel.Machine

/-!
# The futex with Pthreads

Where there is no Linux futex, a waiter blocks on a condition variable of its own, which
lies on its stack together with its links.  The waiters are linked in both directions, the
newest first, and a broadcast goes through the whole list.  A waiter whose timed wait is
over takes itself out of the list under the lock.

What is done under the lock is one turn.  Besides, a waiter leaves its condition variable,
and loads its own value.

A waiter that takes itself out writes to its successor, whether it has one or not, unless
it is the first one.  As long as no waiter is the last one of several when it does so, the
list consists of exactly the waiters that have not been woken
(`waiters_listed`).
-/

set_option autoImplicit false

namespace ArgobotsReduction.Sync.Futex

open Parallel Containers

universe u

/-- The places of `ABTD_futex_wait_and_unlock` and `ABTD_futex_timedwait_and_unlock` -/
inductive Place where
  | outside
  | waits
  | timedWaits
  /-- A timed wait is over, for whatever reason. -/
  | awake
  /-- The value was 0, and the waiter takes the lock. -/
  | locks
  deriving DecidableEq

/-- `ABTD_futex_multiple` and the objects of type `pthread_sync`, one for each caller.  `wakes`
counts how often a caller has been woken in its last wait, and `registrations` counts all the
waits. -/
structure State (ι : Type u) where
  head : Option ι
  next : ι → Option ι
  prev : ι → Option ι
  val : ι → Bool
  place : ι → Place
  wakes : ι → ℕ
  registrations : ℕ

variable {ι : Type u} [DecidableEq ι]

namespace State

def goTo (s : State ι) (i : ι) (place : Place) : State ι :=
  { s with place := Function.update s.place i place }

/-- The first part of both functions, until the lock is released -/
def register (s : State ι) (i : ι) : State ι :=
  { s with
    head := some i
    next := Function.update s.next i s.head
    prev := relink (Function.update s.prev i none) s.head (some i)
    val := Function.update s.val i false
    wakes := Function.update s.wakes i 0
    registrations := s.registrations + 1 }

/-- The last part of `ABTD_futex_timedwait_and_unlock`, under the lock.  It returns nothing where
it follows a null pointer. -/
def remove (s : State ι) (i : ι) : Option (State ι) :=
  if s.val i then some s
  else if s.head = some i then some { s with head := s.next i }
  else
    s.prev i |>.bind fun before =>
      (s.next i).map fun after => { s with
        next := Function.update s.next before (some after)
        prev := Function.update s.prev after (some before) }

/-- The body of the loop of `ABTD_futex_broadcast` -/
def wake (s : State ι) (i : ι) : State ι :=
  { s with
    val := Function.update s.val i true
    wakes := Function.update s.wakes i (s.wakes i + 1) }

/-- The loop of `ABTD_futex_broadcast` -/
def broadcastLoop : ℕ → Option ι → State ι → Option (State ι)
  | _, none, s => some s
  | 0, some _, _ => none
  | turns + 1, some i, s => broadcastLoop turns (s.next i) (s.wake i)

/-- `ABTD_futex_broadcast`.  The loop has at most one turn for every wait so far. -/
def broadcast (s : State ι) : Option (State ι) :=
  (broadcastLoop s.registrations s.head s).map fun t => { t with head := none }

end State

/-- What can happen -/
inductive Event (ι : Type u) where
  | wait (i : ι) (timed : Bool)
  | leave (i : ι)
  | wakeUp (i : ι)
  | load (i : ι)
  | remove (i : ι)
  | broadcast

/-- When an event can happen.  A caller waits once at a time, and an untimed wait is only over
when the value is set. -/
def State.Allows (s : State ι) : Event ι → Prop
  | .wait i _ => s.place i = .outside
  | .leave i => s.place i = .waits ∧ s.val i = true
  | .wakeUp i => s.place i = .timedWaits
  | .load i => s.place i = .awake
  | .remove i => s.place i = .locks
  | .broadcast => True

instance (s : State ι) : (event : Event ι) → Decidable (s.Allows event)
  | .wait i _ => inferInstanceAs (Decidable (s.place i = .outside))
  | .leave _ => inferInstanceAs (Decidable (_ ∧ _))
  | .wakeUp i => inferInstanceAs (Decidable (s.place i = .timedWaits))
  | .load i => inferInstanceAs (Decidable (s.place i = .awake))
  | .remove i => inferInstanceAs (Decidable (s.place i = .locks))
  | .broadcast => .isTrue trivial

/-- The effect of an event -/
def State.apply (s : State ι) : Event ι → Option (State ι)
  | .wait i timed => some ((s.register i).goTo i (if timed then .timedWaits else .waits))
  | .leave i => some (s.goTo i .outside)
  | .wakeUp i => some (s.goTo i .awake)
  | .load i => some (s.goTo i (if s.val i then .outside else .locks))
  | .remove i => (s.remove i).map fun t => t.goTo i .outside
  | .broadcast => s.broadcast

/-- `ABTD_futex_multiple_init`, when nobody waits -/
structure Starts (s : State ι) : Prop where
  head : s.head = none
  place : ∀ i, s.place i = .outside

/-- The futexes with their events -/
def futexes (ι : Type u) [DecidableEq ι] : Machine (State ι) (Event ι) where
  init := Starts
  step s event := if s.Allows event then s.apply event else none

/-- A waiter that takes itself out of the list is the first one, or has a successor. -/
def Meets (s : State ι) : Event ι → Prop
  | .remove i => s.val i = false → s.head = some i ∨ s.next i ≠ none
  | _ => True

instance (s : State ι) : (event : Event ι) → Decidable (Meets s event)
  | .remove _ => inferInstanceAs (Decidable (_ → _))
  | .wait _ _ | .leave _ | .wakeUp _ | .load _ | .broadcast => .isTrue trivial

/-! ## What has to hold -/

/-- The links back, of which that of the first waiter does not count -/
def State.back (s : State ι) (i : ι) : Option ι := if s.head = some i then none else s.prev i

/-- The list has the waiters that have not been woken, linked in both directions, and every wait
has been answered at most once. -/
structure WellFormed (s : State ι) (list : List ι) : Prop where
  head : s.head = list.head?
  linked : TwoWay s.next s.back list
  nodup : list.Nodup
  waiting : ∀ i, i ∈ list ↔ s.place i ≠ .outside ∧ s.val i = false
  answered : ∀ i, s.place i ≠ .outside → s.wakes i = if s.val i then 1 else 0
  short : list.length ≤ s.registrations

/-- What an event does to the list -/
def Event.onList : Event ι → List ι → List ι
  | .wait i _, list => i :: list
  | .remove i, list => list.erase i
  | .broadcast, _ => []
  | .leave _, list | .wakeUp _, list | .load _, list => list

/-- How often a waiter has been woken after an event -/
def Event.wakes (event : Event ι) (s : State ι) (list : List ι) (i : ι) : ℕ :=
  match event with
  | .wait j _ => if i = j then 0 else s.wakes i
  | .broadcast => if i ∈ list then s.wakes i + 1 else s.wakes i
  | _ => s.wakes i

/-- The event can happen and does what it should to the list. -/
def Acts (s : State ι) (list : List ι) (event : Event ι) : Prop :=
  ∃ t, s.apply event = some t ∧ WellFormed t (event.onList list) ∧
    ∀ i, t.wakes i = event.wakes s list i

namespace WellFormed

variable {s : State ι} {list : List ι}

theorem notMem_of_outside (fine : WellFormed s list) {i : ι} (outside : s.place i = .outside) :
    i ∉ list := fun member => ((fine.waiting i).mp member).1 outside

/-- **Every waiter but the first knows the one before it.** -/
theorem prev_eq (fine : WellFormed s list) {front back : List ι} {x y : ι}
    (split : list = front ++ x :: y :: back) : s.prev y = some x := by
  have whole : list = (front ++ [x]) ++ y :: back := by simp [split]
  have linked := fine.linked
  rw [whole] at linked
  have notHead : s.head ≠ some y := by
    intro isHead
    have nodup := fine.nodup
    rw [split, List.nodup_append] at nodup
    rw [fine.head, split] at isHead
    cases front with
    | nil =>
        obtain rfl := Option.some.inj isHead
        exact (List.nodup_cons.mp nodup.2.1).1 List.mem_cons_self
    | cons first front =>
        obtain rfl := Option.some.inj isHead
        exact nodup.2.2 first List.mem_cons_self first (by simp) rfl
  have before := linked.prev_eq
  rw [State.back, if_neg notHead, List.getLast?_concat] at before
  exact before

/-- A move of a caller between two places of its wait, or out of it when it has been woken -/
theorem goTo (fine : WellFormed s list) {i : ι} {place : Place} (active : s.place i ≠ .outside)
    (ends : place = .outside → s.val i = true) : WellFormed (s.goTo i place) list where
  head := fine.head
  linked := fine.linked
  nodup := fine.nodup
  waiting j := by
    rw [fine.waiting]
    show _ ↔ Function.update s.place i place j ≠ .outside ∧ s.val j = false
    by_cases same : j = i
    · subst same
      rw [Function.update_self]
      refine and_congr_left fun notWoken => ⟨fun _ leaves => ?_, fun _ => active⟩
      rw [ends leaves] at notWoken
      cases notWoken
    · rw [Function.update_of_ne same]
  answered j stays := by
    have stays : Function.update s.place i place j ≠ .outside := stays
    by_cases same : j = i
    · subst same
      exact fine.answered j active
    · rw [Function.update_of_ne same] at stays
      exact fine.answered j stays
  short := fine.short

/-- A new wait -/
theorem wait (fine : WellFormed s list) {i : ι} (outside : s.place i = .outside) (timed : Bool) :
    Acts s list (.wait i timed) := by
  have absent := fine.notMem_of_outside outside
  have notHead : ∀ j ∈ list, j ≠ i := fun j member => ne_of_mem_of_not_mem member absent
  have headNot : s.head ≠ some i := by
    rw [fine.head]
    exact fun isHead => absent (List.mem_of_mem_head? isHead)
  refine ⟨_, rfl, ⟨rfl, ?_, ?_, ?_, ?_, ?_⟩, fun j => ?_⟩
  · have inserted := @TwoWay.insert _ _ _ [] _ _ _ fine.linked
      (List.nodup_cons.mpr ⟨absent, fine.nodup⟩)
    refine inserted.congr (fun j _ => ?_) fun j member => ?_
    · show Function.update s.next i s.head j = _
      rw [fine.head]
      rfl
    · show (if some i = some j then none else
        relink (Function.update s.prev i none) s.head (some i) j) = _
      rw [← fine.head]
      rcases List.mem_cons.mp member with rfl | later
      · rw [if_pos rfl, relink_of_ne headNot, Function.update_self]
        rfl
      · have other := notHead j later
        rw [if_neg fun same => other (Option.some.inj same).symm]
        by_cases first : s.head = some j
        · rw [first, relink_self, relink_self]
        · rw [relink_of_ne first, relink_of_ne first, Function.update_of_ne other,
            Function.update_of_ne other, State.back, if_neg first]
  · exact List.nodup_cons.mpr ⟨absent, fine.nodup⟩
  · intro j
    show j ∈ i :: list ↔ Function.update s.place i _ j ≠ .outside ∧
      Function.update s.val i false j = false
    by_cases same : j = i
    · subst same
      rw [Function.update_self, Function.update_self]
      refine ⟨fun _ => ⟨?_, rfl⟩, fun _ => List.mem_cons_self⟩
      cases timed <;> decide
    · rw [Function.update_of_ne same, Function.update_of_ne same, List.mem_cons, fine.waiting]
      exact ⟨fun either => either.resolve_left same, .inr⟩
  · intro j stays
    have stays : Function.update s.place i _ j ≠ .outside := stays
    show Function.update s.wakes i 0 j = if Function.update s.val i false j then 1 else 0
    by_cases same : j = i
    · subst same
      rw [Function.update_self, Function.update_self]
      rfl
    · rw [Function.update_of_ne same] at stays
      rw [Function.update_of_ne same, Function.update_of_ne same]
      exact fine.answered j stays
  · exact Nat.succ_le_succ fine.short
  · show Function.update s.wakes i 0 j = if j = i then 0 else s.wakes j
    by_cases same : j = i
    · subst same
      rw [Function.update_self, if_pos rfl]
    · rw [Function.update_of_ne same, if_neg same]

/-- The links after a waiter has been taken out -/
theorem remove_linked (fine : WellFormed s list) {i : ι} (member : i ∈ list)
    (meets : s.head = some i ∨ s.next i ≠ none) (notWoken : s.val i = false) :
    ∃ head next prev, s.remove i = some { s with head := head, next := next, prev := prev } ∧
      head = (list.erase i).head? ∧
        TwoWay next (fun j => if head = some j then none else prev j) (list.erase i) := by
  obtain ⟨front, back, rfl⟩ := List.append_of_mem member
  have nodup := fine.nodup
  have notFront : i ∉ front := by
    rw [List.nodup_append] at nodup
    exact fun inFront => nodup.2.2 i inFront i List.mem_cons_self rfl
  have notBack : i ∉ back := by
    rw [List.nodup_append] at nodup
    exact (List.nodup_cons.mp nodup.2.1).1
  have erased : (front ++ i :: back).erase i = front ++ back := by
    rw [List.erase_append_right _ notFront, List.erase_cons_head]
  have removed := fine.linked.remove fine.nodup
  have nextEq : s.next i = back.head? := fine.linked.next_eq
  rw [erased, State.remove, if_neg (by simp [notWoken])]
  cases front using List.reverseRecOn with
  | nil =>
      have isHead : s.head = some i := fine.head
      refine ⟨s.next i, s.next, s.prev, if_pos isHead, nextEq, ?_⟩
      refine TwoWay.congr removed (fun j _ => rfl) fun j inBack => ?_
      have other : i ≠ j := (ne_of_mem_of_not_mem inBack notBack).symm
      rw [nextEq]
      by_cases first : back.head? = some j
      · rw [if_pos first, first, relink_self]
        rfl
      · rw [if_neg first, relink_of_ne first, State.back,
          if_neg fun same => other (Option.some.inj (isHead.symm.trans same))]
  | append_singleton front before _ =>
      have prevEq : s.prev i = some before :=
        @prev_eq _ _ _ _ fine front back before i (by simp)
      have headFront : s.head = (front ++ [before]).head? := by
        rw [fine.head]
        exact List.head?_append_of_ne_nil _ (by simp)
      have inFront : ∀ j, s.head = some j → j ∈ front ++ [before] := fun j same =>
        List.mem_of_mem_head? (headFront ▸ same)
      have headNot : s.head ≠ some i := fun same => notFront (inFront i same)
      obtain ⟨after, next⟩ := Option.ne_none_iff_exists'.mp (meets.resolve_left headNot)
      have first : s.head = (front ++ [before] ++ back).head? := by
        rw [headFront]
        exact (List.head?_append_of_ne_nil _ (by simp)).symm
      have backHead : back.head? = some after := nextEq.symm.trans next
      have inBack : after ∈ i :: back := List.mem_cons_of_mem _ (List.mem_of_mem_head? backHead)
      have afterNot : s.head ≠ some after := fun same =>
        (List.nodup_append.mp nodup).2.2 after (inFront after same) after inBack rfl
      refine ⟨s.head, Function.update s.next before (some after),
        Function.update s.prev after (some before), ?_, first, ?_⟩
      · rw [if_neg headNot, prevEq, next]
        rfl
      · refine TwoWay.congr removed (fun j _ => ?_) fun j _ => ?_
        · rw [List.getLast?_concat, backHead]
          rfl
        · rw [List.getLast?_concat, backHead]
          by_cases same : after = j
          · subst same
            rw [relink_self, if_neg afterNot, Function.update_self]
          · rw [relink_of_ne fun eq => same (Option.some.inj eq),
              Function.update_of_ne (Ne.symm same)]
            rfl

/-- **A waiter that is not the last one of several takes itself out.** -/
theorem remove (fine : WellFormed s list) {i : ι} (locks : s.place i = .locks)
    (meets : Meets s (.remove i)) : Acts s list (.remove i) := by
  have active : s.place i ≠ .outside := by simp [locks]
  cases woken : s.val i with
  | true =>
      have absent : i ∉ list := by
        rw [fine.waiting, woken]
        exact fun waits => nomatch waits.2
      refine ⟨s.goTo i .outside, ?_, ?_, fun _ => rfl⟩
      · simp [State.apply, State.remove, woken]
      · rw [Event.onList, List.erase_of_not_mem absent]
        exact fine.goTo active fun _ => woken
  | false =>
      have member : i ∈ list := (fine.waiting i).mpr ⟨active, woken⟩
      obtain ⟨head, next, prev, removed, first, linked⟩ :=
        fine.remove_linked member (meets woken) woken
      refine ⟨State.goTo { s with head := head, next := next, prev := prev } i .outside, ?_,
        ⟨first, linked, ?_, ?_, ?_, ?_⟩, fun _ => rfl⟩
      · rw [State.apply, removed]
        rfl
      · exact fine.nodup.erase i
      · intro j
        show j ∈ list.erase i ↔ Function.update s.place i .outside j ≠ .outside ∧ s.val j = false
        rw [fine.nodup.mem_erase_iff]
        by_cases same : j = i
        · subst same
          simp
        · rw [Function.update_of_ne same, fine.waiting]
          exact ⟨fun waits => waits.2, fun waits => ⟨same, waits⟩⟩
      · intro j stays
        have stays : Function.update s.place i .outside j ≠ .outside := stays
        by_cases same : j = i
        · subst same
          exact absurd (Function.update_self ..) stays
        · rw [Function.update_of_ne same] at stays
          exact fine.answered j stays
      · exact Nat.le_trans (List.length_erase_le ..) fine.short

end WellFormed

/-- The waiters are woken one after the other. -/
theorem broadcastLoop_eq {turns : ℕ} {pointer : Option ι} {s : State ι} {rest : List ι}
    (linked : Linked s.next pointer rest) (nodup : rest.Nodup) (enough : rest.length ≤ turns) :
    State.broadcastLoop turns pointer s = some { s with
      val := fun i => if i ∈ rest then true else s.val i
      wakes := fun i => if i ∈ rest then s.wakes i + 1 else s.wakes i } := by
  induction rest generalizing turns pointer s with
  | nil =>
      obtain rfl : pointer = none := linked
      cases turns <;> rfl
  | cons i rest ih =>
      obtain ⟨rfl, tail⟩ := linked
      obtain ⟨absent, nodup⟩ := List.nodup_cons.mp nodup
      cases turns with
      | zero => exact absurd enough (Nat.not_succ_le_zero _)
      | succ turns =>
          rw [State.broadcastLoop, ih (s := s.wake i) tail nodup (Nat.le_of_succ_le_succ enough)]
          congr 2
          · funext j
            show (if j ∈ rest then true else Function.update s.val i true j) = _
            by_cases same : j = i
            · subst same
              rw [if_neg absent, if_pos List.mem_cons_self, Function.update_self]
            · simp [same]
          · funext j
            show (if j ∈ rest then Function.update s.wakes i (s.wakes i + 1) j + 1 else
              Function.update s.wakes i (s.wakes i + 1) j) = _
            by_cases same : j = i
            · subst same
              rw [if_neg absent, if_pos List.mem_cons_self, Function.update_self]
            · simp [same]

namespace WellFormed

variable {s : State ι} {list : List ι}

/-- **A broadcast wakes exactly the waiters of the list, each once.** -/
theorem broadcast (fine : WellFormed s list) : Acts s list .broadcast := by
  have linked := fine.linked.forward
  rw [← fine.head] at linked
  have woken := broadcastLoop_eq linked fine.nodup fine.short
  refine ⟨_, by rw [State.apply, State.broadcast, woken]; rfl,
    ⟨rfl, TwoWay.nil, List.nodup_nil, fun i => ?_, fun i active => ?_, Nat.zero_le _⟩, fun i => rfl⟩
  · refine ⟨nofun, fun waits => ?_⟩
    obtain ⟨active, notWoken⟩ := waits
    have unset : (if i ∈ list then true else s.val i) = false := notWoken
    split at unset
    · cases unset
    · next absent => exact absurd ((fine.waiting i).mpr ⟨active, unset⟩) absent
  · show (if i ∈ list then s.wakes i + 1 else s.wakes i) =
      if (if i ∈ list then true else s.val i) then 1 else 0
    have answered := fine.answered i active
    by_cases member : i ∈ list
    · rw [((fine.waiting i).mp member).2] at answered
      rw [if_pos member, if_pos member, answered]
      rfl
    · rw [if_neg member, if_neg member, answered]

theorem acts (fine : WellFormed s list) {event : Event ι} (allows : s.Allows event)
    (meets : Meets s event) : Acts s list event := by
  cases event with
  | wait i timed => exact fine.wait allows timed
  | leave i =>
      have active : s.place i ≠ .outside := by simp [allows.1]
      exact ⟨_, rfl, fine.goTo active fun _ => allows.2, fun _ => rfl⟩
  | wakeUp i =>
      have active : s.place i ≠ .outside := by simp [show s.place i = .timedWaits from allows]
      exact ⟨_, rfl, fine.goTo active nofun, fun _ => rfl⟩
  | load i =>
      have active : s.place i ≠ .outside := by simp [show s.place i = .awake from allows]
      refine ⟨_, rfl, fine.goTo active fun leaves => ?_, fun _ => rfl⟩
      by_contra unset
      rw [if_neg unset] at leaves
      cases leaves
  | remove i => exact fine.remove allows meets
  | broadcast => exact fine.broadcast

theorem of_starts (starts : Starts s) : WellFormed s [] where
  head := starts.head
  linked := .nil
  nodup := List.nodup_nil
  waiting i := by simp [starts.place i]
  answered i active := absurd (starts.place i) active
  short := Nat.zero_le _

end WellFormed

/-- A removal of the last one of several waiters follows a null pointer. -/
theorem remove_eq_none {s : State ι} {i : ι} (fails : ¬ Meets s (.remove i)) :
    s.apply (.remove i) = none := by
  obtain ⟨notWoken, neither⟩ := Classical.not_imp.mp fails
  obtain ⟨notHead, noNext⟩ := not_or.mp neither
  rw [State.apply, State.remove, if_neg (by simp [notWoken]), if_neg notHead,
    not_not.mp noNext]
  cases s.prev i <;> rfl

/-- An event that can happen happens if and only if it meets the condition. -/
theorem isSome_iff_meets {s : State ι} {list : List ι} (fine : WellFormed s list)
    {event : Event ι} (allows : s.Allows event) :
    (s.apply event).isSome ↔ Meets s event := by
  constructor
  · intro happens
    by_contra fails
    cases event with
    | remove i =>
        rw [remove_eq_none fails] at happens
        cases happens
    | wait i timed => exact fails trivial
    | leave i => exact fails trivial
    | wakeUp i => exact fails trivial
    | load i => exact fails trivial
    | broadcast => exact fails trivial
  · intro meets
    obtain ⟨t, result, -⟩ := fine.acts allows meets
    rw [result]
    rfl

/-- **In runs in which no waiter takes itself out as the last one of several, the list has exactly
the waiters that have not been woken, and every event does what it should.**  Otherwise a null
pointer is followed. -/
theorem waiters_listed {s : State ι} (reachable : (futexes ι).Reachable Meets s) :
    ∃ list, WellFormed s list ∧
      (∀ front x y back, list = front ++ x :: y :: back → s.prev y = some x) ∧
      ∀ event, s.Allows event → ((s.apply event).isSome ↔ Meets s event) ∧
        (Meets s event → Acts s list event) := by
  suffices fine : ∃ list, WellFormed s list by
    obtain ⟨list, fine⟩ := fine
    exact ⟨list, fine, fun _ _ _ _ split => fine.prev_eq split, fun _ allows =>
      ⟨isSome_iff_meets fine allows, fun meets => fine.acts allows meets⟩⟩
  refine Machine.invariant (fun s => ∃ list, WellFormed s list) ?_ ?_ reachable
  · exact fun s starts => ⟨[], .of_starts starts⟩
  · rintro s event t - meets ⟨list, fine⟩ step
    obtain ⟨allows, step⟩ := Option.ite_none_right_eq_some.mp step
    obtain ⟨u, result, after, -⟩ := fine.acts allows meets
    obtain rfl := Option.some.inj (result.symm.trans step)
    exact ⟨_, after⟩

/-- Nobody waits. -/
def threeOutside : State (Fin 3) where
  head := none
  next _ := none
  prev _ := none
  val _ := false
  place _ := .outside
  wakes _ := 0
  registrations := 0

/-- A timed wait is over between two others, and a broadcast wakes those. -/
theorem waiters_listed_middle :
    ∃ s : State (Fin 3), (∃ list, WellFormed s list) ∧ s.head = none ∧ s.place 1 = .outside ∧
      s.wakes 0 = 1 ∧ s.wakes 1 = 0 ∧ s.wakes 2 = 1 := by
  obtain ⟨s, reachable, result⟩ := Machine.exists_reachable_of_play Meets
    (M := futexes (Fin 3)) (s := threeOutside) ⟨rfl, fun _ => rfl⟩
    [.wait 0 false, .wait 1 true, .wait 2 true, .wakeUp 1, .load 1, .remove 1, .broadcast]
    (fun s => s.head = none ∧ s.place 1 = .outside ∧ s.wakes 0 = 1 ∧ s.wakes 1 = 0 ∧
      s.wakes 2 = 1) (by decide)
  obtain ⟨list, fine, -⟩ := waiters_listed reachable
  exact ⟨s, ⟨list, fine⟩, of_decide_eq_true result⟩

/-- The first one of two waiters, which is the last one of the list, times out. -/
theorem not_waiters_listed :
    ¬ ∀ s : State (Fin 3), (futexes (Fin 3)).Reachable Machine.anyEvent s →
      ∃ list, WellFormed s list ∧ ∀ event, s.Allows event → Acts s list event := by
  intro all
  obtain ⟨s, reachable, result⟩ := Machine.exists_reachable_of_play Machine.anyEvent
    (M := futexes (Fin 3)) (s := threeOutside) ⟨rfl, fun _ => rfl⟩
    [.wait 0 true, .wait 1 true, .wakeUp 0, .load 0]
    (fun s => s.Allows (.remove 0) ∧ s.apply (.remove 0) = none) (by decide)
  obtain ⟨allows, fails⟩ := of_decide_eq_true result
  obtain ⟨list, -, acts⟩ := all s reachable
  obtain ⟨t, happens, -⟩ := acts (.remove 0) allows
  rw [fails] at happens
  cases happens

end ArgobotsReduction.Sync.Futex
