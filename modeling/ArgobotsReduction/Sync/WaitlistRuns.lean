import Mathlib.Data.List.Chain
import Mathlib.Data.List.Nodup
import ArgobotsReduction.Sync.Waitlist

/-!
# Runs of the waitlist

The descriptors that are linked from the head are the queue of the callers that wait
and have not been woken, in the order in which they began to wait (`WellFormed`).
Every operation does to the queue what it should (`waitlist_fifo`).
-/

set_option autoImplicit false

namespace ArgobotsReduction.Sync.Waitlist

open Parallel Containers

universe u

variable {ι : Type u}

/-! ## The links -/

/-- The links of the list.  A timed wait that is not at the head has a link to the
descriptor before it. -/
structure Shape (head tail : Option ι) (next prev : ι → Option ι) (timed : ι → Bool)
    (queue : List ι) : Prop where
  linked : Linked next head queue
  last : tail = queue.getLast?
  prev : queue.IsChain fun before n => timed n = true → prev n = some before

namespace Shape

variable {head tail : Option ι} {next prev : ι → Option ι} {timed timed' : ι → Bool}
  {queue : List ι}

theorem congr (shape : Shape head tail next prev timed queue)
    (same : ∀ n ∈ queue, timed' n = timed n) : Shape head tail next prev timed' queue where
  linked := shape.linked
  last := shape.last
  prev := shape.prev.imp_of_mem_imp fun _ n _ member before isTimed =>
    before ((same n member).symm.trans isTimed)

variable [DecidableEq ι]

end Shape

variable [DecidableEq ι]

/-- A descriptor that is appended is the last one of the list. -/
theorem State.append_shape {s : State ι} {queue : List ι}
    (shape : Shape s.head s.tail s.next s.prev s.isTimed queue) {n : ι} (absent : n ∉ queue)
    (nodup : queue.Nodup) (timed : Bool) :
    ∃ head tail next prev,
      s.append n timed = some { s with head := head, tail := tail, next := next, prev := prev } ∧
      Shape head tail next prev (Function.update s.isTimed n timed) (queue ++ [n]) := by
  rcases List.eq_nil_or_concat queue with rfl | ⟨front, last, rfl⟩
  · have empty : s.head = none := shape.linked
    refine ⟨some n, some n, Function.update s.next n none,
      if timed then Function.update s.prev n none else s.prev, ?_, ⟨⟨rfl, ?_⟩, rfl,
        List.isChain_singleton _⟩⟩
    · simp only [State.append, empty]
    · simp
  · obtain ⟨first, head⟩ : ∃ first, s.head = some first := by
      rw [shape.linked.head]
      cases front <;> simp
    have tail : s.tail = some last := by simpa using shape.last
    have notLast : last ≠ n := by
      rintro rfl
      simp at absent
    have notFront : last ∉ front := by
      intro member
      exact (List.disjoint_of_nodup_append (by simpa using nodup)) member (List.mem_singleton_self _)
    refine ⟨some first, some n, Function.update (Function.update s.next n none) last (some n),
      if timed then Function.update s.prev n (some last) else s.prev, ?_, ⟨?_, by simp, ?_⟩⟩
    · simp only [State.append, head, tail, Option.map_some]
    · have before : Linked (Function.update s.next n none) (some first) (front ++ [last]) := by
        rw [← head]
        refine Linked.congr (by simpa using shape.linked) fun m member => ?_
        exact Function.update_of_ne (ne_of_mem_of_not_mem (by simpa using member) absent) _ _
      have other : Linked (Function.update s.next n none) (some n) [n] := ⟨rfl, by simp⟩
      simpa using before.splice other notFront (by simpa using notLast)
    · refine List.isChain_append.mpr ⟨?_, List.isChain_singleton _, ?_⟩
      · refine List.IsChain.imp_of_mem_imp (fun before m _ member link isTimed => ?_) shape.prev
        have apart : m ≠ n := ne_of_mem_of_not_mem member absent
        rw [Function.update_of_ne apart] at isTimed
        cases timed with
        | true => simpa only [if_true, Function.update_of_ne apart] using link isTimed
        | false => exact link isTimed
      · intro m isLast m' isNew isTimed
        obtain rfl : m = last := by simpa using isLast.symm
        obtain rfl : n = m' := by simpa using isNew
        rw [Function.update_self] at isTimed
        simp [isTimed]

/-- A timed wait takes its descriptor out of the list. -/
theorem State.remove_shape {s : State ι} {queue : List ι}
    (shape : Shape s.head s.tail s.next s.prev s.isTimed queue) {n : ι} (member : n ∈ queue)
    (nodup : queue.Nodup) (timed : s.isTimed n = true) :
    ∃ head tail next prev,
      s.remove n = some { s with head := head, tail := tail, next := next, prev := prev } ∧
      Shape head tail next prev s.isTimed (queue.erase n) := by
  obtain ⟨front, rest, rfl⟩ := List.append_of_mem member
  rcases List.eq_nil_or_concat front with rfl | ⟨front, before, rfl⟩
  · -- the head
    obtain ⟨head, linked⟩ := shape.linked
    have after : s.next n = rest.head? := linked.head
    cases rest with
    | nil =>
        have last : s.tail = some n := by simpa using shape.last
        refine ⟨none, none, s.next, s.prev, ?_, by simp, by simp, by simp⟩
        simp only [State.remove, head, after, last, if_true, List.head?_nil]
    | cons m more =>
        refine ⟨some m, s.tail, s.next, s.prev, ?_, ?_, ?_, ?_⟩
        · simp only [State.remove, head, after, if_true, List.head?_cons]
        · simpa [after] using linked
        · simpa using shape.last
        · simpa using shape.prev.tail
  · -- behind another descriptor, which is the one that is recorded
    rw [List.concat_eq_append, List.append_assoc, List.singleton_append] at shape nodup ⊢
    obtain ⟨-, nodupBack, apart⟩ := List.nodup_append.mp nodup
    obtain ⟨notBack, nodupRest⟩ := List.nodup_cons.mp nodupBack
    have notSelf : n ∉ front := fun inside => apart n inside n (by simp) rfl
    have notFront : before ∉ front := fun inside => apart before inside before (by simp) rfl
    rw [List.mem_cons, not_or] at notBack
    have notHead : s.head ≠ some n := by
      rw [shape.linked.head]
      cases front with
      | nil => simpa using notBack.1
      | cons first front => simpa using fun same : first = n => notSelf (by simp [same])
    obtain ⟨left, link, right⟩ := List.isChain_append_cons_cons.mp shape.prev
    have recorded : s.prev n = some before := link timed
    have linkedRest : Linked s.next (s.next n) rest := by
      have split : front ++ before :: n :: rest = (front ++ [before]) ++ n :: rest := by simp
      have suffix := shape.linked
      rw [split] at suffix
      exact suffix.walk.2
    have erased : (front ++ before :: n :: rest).erase n = front ++ before :: rest := by
      rw [List.erase_append_right _ notSelf, List.erase_cons_tail (by simpa using notBack.1),
        List.erase_cons_head]
    have linked := shape.linked.splice linkedRest notFront notBack.2
    have after : s.next n = rest.head? := linkedRest.head
    rw [erased]
    cases rest with
    | nil =>
        have last : s.tail = some n := by simpa using shape.last
        refine ⟨s.head, some before, Function.update s.next before (s.next n), s.prev, ?_, linked,
          by simp, left⟩
        simp only [State.remove, notHead, if_false, recorded, Option.bind_some, after, last,
          List.head?_nil, if_true]
    | cons m more =>
        have notFirst : m ∉ front ++ [before] := by
          rw [List.mem_append, List.mem_singleton, not_or]
          exact ⟨fun inside => apart m inside m (by simp) rfl,
            fun same => notBack.2 (by simp [same])⟩
        refine ⟨s.head, s.tail, Function.update s.next before (s.next n),
          Function.update s.prev m (some before), ?_, linked, ?_, ?_⟩
        · simp only [State.remove, notHead, if_false, recorded, Option.bind_some, after,
            List.head?_cons]
        · simpa using shape.last
        · refine List.isChain_append_cons_cons.mpr ⟨?_, fun _ => Function.update_self _ _ _, ?_⟩
          · refine left.imp_of_mem_imp fun _ k _ member link isTimed => ?_
            rw [Function.update_of_ne (ne_of_mem_of_not_mem member notFirst)]
            exact link isTimed
          · refine right.tail.imp_of_mem_tail_imp fun _ k _ member link isTimed => ?_
            have other : k ≠ m := fun same =>
              (List.nodup_cons.mp (List.nodup_cons.mp nodupRest).2).1 (same ▸ member)
            rw [Function.update_of_ne other]
            exact link isTimed

/-- The state after all descriptors of the queue have been woken. -/
def State.resumeAll (s : State ι) (next : ι → Option ι) (queue : List ι) : State ι :=
  { s with
    next := next
    ready := fun m => if m ∈ queue then true else s.ready m
    wakes := fun m => if m ∈ queue then s.wakes m + 1 else s.wakes m }

theorem State.resume_eq (s : State ι) (n : ι) :
    s.resume n = s.resumeAll (Function.update s.next n none) [n] := by
  have ready : Function.update s.ready n true = fun m => if m ∈ [n] then true else s.ready m := by
    funext m
    simp [Function.update_apply]
  have wakes : Function.update s.wakes n (s.wakes n + 1) =
      fun m => if m ∈ [n] then s.wakes m + 1 else s.wakes m := by
    funext m
    rcases eq_or_ne m n with rfl | other
    · simp
    · simp [other]
  rw [State.resume, ready, wakes, State.resumeAll]

theorem State.resumeAll_resume {s : State ι} {n : ι} {next : ι → Option ι} {queue : List ι}
    (absent : n ∉ queue) : (s.resume n).resumeAll next queue = s.resumeAll next (n :: queue) := by
  have ready : (fun m => if m ∈ queue then true else Function.update s.ready n true m) =
      fun m => if m ∈ n :: queue then true else s.ready m := by
    funext m
    rcases eq_or_ne m n with rfl | other
    · simp
    · simp [other]
  have wakes : (fun m => if m ∈ queue then Function.update s.wakes n (s.wakes n + 1) m + 1
        else Function.update s.wakes n (s.wakes n + 1) m) =
      fun m => if m ∈ n :: queue then s.wakes m + 1 else s.wakes m := by
    funext m
    rcases eq_or_ne m n with rfl | other
    · simp [absent]
    · simp [other]
  simp only [State.resumeAll, State.resume, ready, wakes]

/-- **The loop of a broadcast wakes every descriptor of the list once.** -/
theorem State.drain_eq {fuel : ℕ} {s : State ι} {n : ι} {rest : List ι}
    (linked : Linked s.next (some n) (n :: rest)) (nodup : (n :: rest).Nodup)
    (enough : (n :: rest).length ≤ fuel) (wakeup : Bool) :
    ∃ next, State.drain fuel s n wakeup = some (s.resumeAll next (n :: rest),
      wakeup || (n :: rest).any fun m => s.waits m != some Kind.ult) := by
  induction rest generalizing s n fuel wakeup with
  | nil =>
      obtain ⟨-, last⟩ := linked
      cases fuel with
      | zero => exact absurd enough (by simp)
      | succ fuel =>
          refine ⟨Function.update s.next n none, ?_⟩
          simp [State.drain, show s.next n = none from last, State.resume_eq]
  | cons m more ih =>
      obtain ⟨-, after, linked⟩ := linked
      obtain ⟨absent, nodupRest⟩ := List.nodup_cons.mp nodup
      cases fuel with
      | zero => exact absurd enough (by simp)
      | succ fuel =>
          have rest : Linked (s.resume n).next (some m) (m :: more) := by
            refine Linked.congr ⟨rfl, linked⟩ fun k member => ?_
            exact Function.update_of_ne (ne_of_mem_of_not_mem member absent) _ _
          obtain ⟨next, result⟩ := ih rest nodupRest (Nat.le_of_succ_le_succ enough)
            (wakeup || s.waits n != some Kind.ult)
          refine ⟨next, ?_⟩
          rw [State.resumeAll_resume absent] at result
          simp only [State.drain, after]
          rw [result]
          simp [State.resume, Bool.or_assoc]

/-- **A broadcast empties the list.** -/
theorem State.broadcast_eq {s : State ι} {queue : List ι}
    (shape : Shape s.head s.tail s.next s.prev s.isTimed queue) (nodup : queue.Nodup)
    (enough : queue.length ≤ s.clock) :
    ∃ next, s.broadcast = some (({ s.resumeAll next queue with
        head := none
        tail := none }).futexBroadcast (queue.any fun m => s.waits m != some Kind.ult)) := by
  cases queue with
  | nil =>
      have head : s.head = none := shape.linked
      have tail : s.tail = none := shape.last
      refine ⟨s.next, ?_⟩
      cases s
      subst head tail
      simp [State.broadcast, State.resumeAll, State.futexBroadcast]
  | cons n rest =>
      have head : s.head = some n := shape.linked.head
      obtain ⟨next, result⟩ := State.drain_eq (head ▸ shape.linked) nodup enough false
      refine ⟨next, ?_⟩
      simp only [State.broadcast, head, result, Option.map_some, Bool.false_or]

/-- **A signal takes the first descriptor out of the list.** -/
theorem State.signal_eq {s : State ι} {n : ι} {rest : List ι}
    (shape : Shape s.head s.tail s.next s.prev s.isTimed (n :: rest)) (nodup : (n :: rest).Nodup) :
    ∃ head tail next,
      s.signal = ({ s.resumeAll next [n] with head := head, tail := tail }).futexBroadcast
        (s.waits n != some Kind.ult) ∧
      Shape head tail next s.prev s.isTimed rest := by
  have head : s.head = some n := shape.linked.head
  obtain ⟨absent, -⟩ := List.nodup_cons.mp nodup
  refine ⟨s.next n, if s.next n = none then none else s.tail, Function.update s.next n none, ?_,
    ?_, ?_, ?_⟩
  · simp only [State.signal, head]
    rw [State.resume_eq]
    rfl
  · exact shape.linked.2.congr fun m member =>
      Function.update_of_ne (ne_of_mem_of_not_mem member absent) _ _
  · have after : s.next n = rest.head? := shape.linked.2.head
    cases rest with
    | nil => simp [after]
    | cons m more => simpa [after] using shape.last
  · exact shape.prev.tail

/-! ## The queue -/

/-- The list is the queue of the waiters that have not been woken, and every wait has been
answered at most once. -/
structure WellFormed (s : State ι) (queue : List ι) : Prop where
  shape : Shape s.head s.tail s.next s.prev s.isTimed queue
  nodup : queue.Nodup
  waiting : ∀ n, n ∈ queue ↔ s.waits n ≠ none ∧ s.ready n = false
  order : queue.Pairwise fun n m => s.since n < s.since m
  past : ∀ n ∈ queue, s.since n < s.clock
  short : queue.length ≤ s.clock
  answered : ∀ n, s.waits n ≠ none → s.wakes n = if s.ready n then 1 else 0
  atMostOnce : ∀ n, s.wakes n ≤ 1
  reports : ∀ n, s.waits n = none → ∀ timedOut, s.timedOut n = some timedOut →
    (timedOut = true ↔ s.wakes n = 0)
  sleepers : ∀ n, s.waits n ≠ none → s.sleeping n = true → s.sleeps n = true
  awake : ∀ n, s.waits n ≠ none → s.ready n = true → s.sleeping n = false

/-- What an event does to the queue. -/
def Event.onQueue : Event ι → List ι → List ι
  | .wait n _, queue => queue ++ [n]
  | .timeout n, queue => queue.erase n
  | .signal, queue => queue.tail
  | .broadcast, _ => []
  | .leave _, queue | .wakeUp _, queue | .sleep _, queue => queue

/-- Who is woken by an event. -/
def Event.woken : Event ι → List ι → List ι
  | .signal, queue => queue.take 1
  | .broadcast, queue => queue
  | _, _ => []

/-- How often a waiter has been woken after an event. -/
def Event.wakes (event : Event ι) (s : State ι) (queue : List ι) (n : ι) : ℕ :=
  match event with
  | .wait m _ => if n = m then 0 else s.wakes n
  | _ => if n ∈ event.woken queue then s.wakes n + 1 else s.wakes n

/-- The event can happen and does what it should to the queue. -/
def Acts (s : State ι) (queue : List ι) (event : Event ι) : Prop :=
  ∃ t, s.apply event = some t ∧ WellFormed t (event.onQueue queue) ∧
    ∀ n, t.wakes n = event.wakes s queue n

namespace WellFormed

variable {s : State ι} {queue : List ι}

omit [DecidableEq ι] in
theorem notMem_of_idle (fine : WellFormed s queue) {n : ι} (idle : s.waits n = none) :
    n ∉ queue := fun member => ((fine.waiting n).mp member).1 idle

/-- A new wait. -/
theorem wait (fine : WellFormed s queue) {n : ι} (idle : s.waits n = none) (kind : Kind) :
    Acts s queue (.wait n kind) := by
  have absent := fine.notMem_of_idle idle
  obtain ⟨head, tail, next, prev, appended, shape⟩ :=
    State.append_shape fine.shape absent fine.nodup kind.isTimed
  refine ⟨_, by rw [State.apply, State.wait, appended]; rfl, ?_, fun m => ?_⟩
  · change WellFormed _ (queue ++ [n])
    constructor
    case shape =>
      have timed : (fun m => (Function.update s.waits n (some kind) m).any Kind.isTimed) =
          Function.update s.isTimed n kind.isTimed := by
        funext m
        rcases eq_or_ne m n with rfl | other
        · simp
        · simp [other, State.isTimed]
      exact shape.congr fun m _ => congrFun timed m
    case nodup => exact List.nodup_append.mpr ⟨fine.nodup, List.nodup_singleton n, by
      rintro a member b isNew rfl
      exact absent (List.mem_singleton.mp isNew ▸ member)⟩
    case waiting =>
      intro m
      rcases eq_or_ne m n with rfl | other
      · simp
      · simpa [other] using fine.waiting m
    case order =>
      refine List.pairwise_append.mpr ⟨?_, List.pairwise_singleton _ _, fun a member b isNew => ?_⟩
      · refine fine.order.imp_of_mem fun {a b} memberA memberB before => ?_
        have notA : a ≠ n := ne_of_mem_of_not_mem memberA absent
        have notB : b ≠ n := ne_of_mem_of_not_mem memberB absent
        simpa [notA, notB] using before
      · obtain rfl := List.mem_singleton.mp isNew
        have other : a ≠ b := ne_of_mem_of_not_mem member absent
        simpa [other] using fine.past a member
    case past =>
      intro m member
      rcases eq_or_ne m n with rfl | other
      · simp
      · simpa [other] using Nat.lt_succ_of_lt (fine.past m (by simpa [other] using member))
    case short => simpa using fine.short
    case answered =>
      intro m active
      rcases eq_or_ne m n with rfl | other
      · simp
      · simpa [other] using fine.answered m (by simpa [other] using active)
    case atMostOnce =>
      intro m
      rcases eq_or_ne m n with rfl | other
      · simp
      · simpa [other] using fine.atMostOnce m
    case reports =>
      intro m idle
      rcases eq_or_ne m n with rfl | other
      · simp at idle
      · simpa [other] using fine.reports m (by simpa [other] using idle)
    case sleepers =>
      intro m active
      rcases eq_or_ne m n with rfl | other
      · simp [State.sleeps]
      · simpa [other, State.sleeps] using fine.sleepers m (by simpa [other] using active)
    case awake =>
      intro m active
      rcases eq_or_ne m n with rfl | other
      · simp
      · simpa [other] using fine.awake m (by simpa [other] using active)
  · rcases eq_or_ne m n with rfl | other
    · simp [Event.wakes]
    · simp [Event.wakes, other]

/-- The descriptors of the front of the queue are woken. -/
theorem resumeAll (fine : WellFormed s queue) (woken : List ι) {rest : List ι}
    (split : queue = woken ++ rest) {head tail : Option ι} {next : ι → Option ι}
    (shape : Shape head tail next s.prev s.isTimed rest) {wakeup : Bool}
    (sleepers : ∀ n ∈ woken, wakeup = false → s.waits n = some Kind.ult) :
    WellFormed (({ s.resumeAll next woken with head := head, tail := tail }).futexBroadcast wakeup)
      rest := by
  subst split
  obtain ⟨-, nodupRest, apart⟩ := List.nodup_append.mp fine.nodup
  have fresh : ∀ n ∈ woken, s.waits n ≠ none ∧ s.ready n = false ∧ s.wakes n = 0 := by
    intro n member
    obtain ⟨active, notReady⟩ := (fine.waiting n).mp (List.mem_append_left _ member)
    refine ⟨active, notReady, ?_⟩
    simp [fine.answered n active, notReady]
  constructor
  case shape => exact shape
  case nodup => exact nodupRest
  case waiting =>
    intro n
    by_cases member : n ∈ woken
    · have notRest : n ∉ rest := fun inside => apart n member n inside rfl
      simp [State.resumeAll, State.futexBroadcast, member, notRest]
    · simpa [State.resumeAll, State.futexBroadcast, member] using fine.waiting n
  case order => exact (List.pairwise_append.mp fine.order).2.1
  case past => exact fun n member => fine.past n (List.mem_append_right _ member)
  case short =>
    have short := fine.short
    rw [List.length_append] at short
    exact (Nat.le_add_left _ _).trans short
  case answered =>
    intro n active
    by_cases member : n ∈ woken
    · simp [State.resumeAll, State.futexBroadcast, member, (fresh n member).2.2]
    · simpa [State.resumeAll, State.futexBroadcast, member] using fine.answered n active
  case atMostOnce =>
    intro n
    by_cases member : n ∈ woken
    · simp [State.resumeAll, State.futexBroadcast, member, (fresh n member).2.2]
    · simpa [State.resumeAll, State.futexBroadcast, member] using fine.atMostOnce n
  case reports =>
    intro n idle
    have notWoken : n ∉ woken := fun member => (fresh n member).1 idle
    simpa [State.resumeAll, State.futexBroadcast, notWoken] using fine.reports n idle
  case sleepers =>
    intro n active asleep
    cases wakeup with
    | true => simp [State.futexBroadcast] at asleep
    | false => exact fine.sleepers n active asleep
  case awake =>
    intro n active ready
    cases wakeup with
    | true => rfl
    | false =>
        by_cases member : n ∈ woken
        · by_contra asleep
          have sleeps := fine.sleepers n active (eq_true_of_ne_false asleep)
          simp [State.sleeps, sleepers n member rfl, Kind.sleeps] at sleeps
        · refine fine.awake n active ?_
          simpa [State.resumeAll, State.futexBroadcast, member] using ready

theorem signal (fine : WellFormed s queue) : Acts s queue .signal := by
  cases queue with
  | nil =>
      have head : s.head = none := fine.shape.linked
      refine ⟨s, by rw [State.apply, State.signal, head], fine, fun n => ?_⟩
      simp [Event.wakes, Event.woken]
  | cons first rest =>
      obtain ⟨head, tail, next, result, shape⟩ := State.signal_eq fine.shape fine.nodup
      refine ⟨_, by rw [State.apply, result], ?_, fun n => ?_⟩
      · refine fine.resumeAll [first] rfl shape fun n member none => ?_
        rw [List.mem_singleton.mp member]
        simpa using none
      · simp [Event.wakes, Event.woken, State.resumeAll, State.futexBroadcast]

theorem broadcast (fine : WellFormed s queue) : Acts s queue .broadcast := by
  obtain ⟨next, result⟩ := State.broadcast_eq fine.shape fine.nodup fine.short
  refine ⟨_, result, ?_, fun n => ?_⟩
  · refine fine.resumeAll queue (List.append_nil queue).symm ⟨rfl, rfl, List.isChain_nil⟩
      fun n member none => ?_
    have ult := List.any_eq_false.mp none n member
    simpa using ult
  · rfl

/-- The wait of a descriptor is over, and the descriptor is not in the list any more. -/
theorem leave (fine : WellFormed s queue) {n : ι} (timedOut : Option Bool)
    {head tail : Option ι} {next prev : ι → Option ι}
    (shape : Shape head tail next prev s.isTimed (queue.erase n))
    (reports : ∀ result, timedOut = some result → (result = true ↔ s.wakes n = 0)) :
    WellFormed ({ s with head := head, tail := tail, next := next, prev := prev }.leave n timedOut)
      (queue.erase n) := by
  have others : ∀ m, m ∈ queue.erase n ↔ m ≠ n ∧ m ∈ queue := fun m => fine.nodup.mem_erase_iff
  constructor
  case shape =>
    refine shape.congr fun m member => ?_
    simp [State.isTimed, State.leave, ((others m).mp member).1]
  case nodup => exact fine.nodup.erase n
  case waiting =>
    intro m
    rw [others]
    rcases eq_or_ne m n with rfl | other
    · simp [State.leave]
    · simpa [State.leave, other] using fine.waiting m
  case order => exact fine.order.sublist List.erase_sublist
  case past => exact fun m member => fine.past m ((others m).mp member).2
  case short => exact (List.length_erase_le).trans fine.short
  case answered =>
    intro m active
    rcases eq_or_ne m n with rfl | other
    · simp [State.leave] at active
    · exact fine.answered m (by simpa [State.leave, other] using active)
  case atMostOnce => exact fine.atMostOnce
  case reports =>
    intro m idle result reported
    rcases eq_or_ne m n with rfl | other
    · exact reports result (by simpa [State.leave] using reported)
    · exact fine.reports m (by simpa [State.leave, other] using idle) result
        (by simpa [State.leave, other] using reported)
  case sleepers =>
    intro m active asleep
    rcases eq_or_ne m n with rfl | other
    · simp [State.leave] at active
    · simpa [State.sleeps, State.leave, other] using
        fine.sleepers m (by simpa [State.leave, other] using active) asleep
  case awake =>
    intro m active
    rcases eq_or_ne m n with rfl | other
    · simp [State.leave] at active
    · exact fine.awake m (by simpa [State.leave, other] using active)

/-- A waiter that has been woken goes on, and reports no timeout. -/
theorem goOn (fine : WellFormed s queue) {n : ι} {timedOut : Option Bool}
    (active : s.waits n ≠ none)
    (ready : s.ready n = true) (reports : timedOut ≠ some true) :
    WellFormed (s.leave n timedOut) queue := by
  have left : n ∉ queue := fun member => by simp [((fine.waiting n).mp member).2] at ready
  have same : queue.erase n = queue := List.erase_of_not_mem left
  have shape : Shape s.head s.tail s.next s.prev s.isTimed (queue.erase n) := by
    rw [same]
    exact fine.shape
  have done := fine.leave timedOut shape fun result reported => ?_
  · rwa [same] at done
  · have woken : s.wakes n = 1 := by simp [fine.answered n active, ready]
    cases result with
    | true => exact absurd reported reports
    | false => simp [woken]

theorem timeout (fine : WellFormed s queue) {n : ι} (timed : s.isTimed n = true) :
    Acts s queue (.timeout n) := by
  have active : s.waits n ≠ none := by
    intro idle
    simp [State.isTimed, idle] at timed
  cases ready : s.ready n with
  | true =>
      have left : n ∉ queue := fun member => by simp [((fine.waiting n).mp member).2] at ready
      refine ⟨s.leave n (some false), by simp [State.apply, State.timeout, ready], ?_, fun m => ?_⟩
      · rw [Event.onQueue, List.erase_of_not_mem left]
        exact fine.goOn active ready (by simp)
      · simp [Event.wakes, Event.woken, State.leave]
  | false =>
      have member : n ∈ queue := (fine.waiting n).mpr ⟨active, ready⟩
      obtain ⟨head, tail, next, prev, result, shape⟩ :=
        State.remove_shape fine.shape member fine.nodup timed
      refine ⟨_, by rw [State.apply, State.timeout, ready, result]; rfl, ?_, fun m => ?_⟩
      · refine fine.leave (some true) shape fun result reported => ?_
        obtain rfl := Option.some.inj reported
        simp [fine.answered n active, ready]
      · simp [Event.wakes, Event.woken, State.leave]

/-- A waiter on the futex goes to sleep, or wakes up. -/
theorem setSleeping (fine : WellFormed s queue) {n : ι} {asleep : Bool}
    (may : asleep = true → s.sleeps n = true ∧ s.ready n = false) :
    WellFormed { s with sleeping := Function.update s.sleeping n asleep } queue := by
  refine ⟨fine.shape, fine.nodup, fine.waiting, fine.order, fine.past, fine.short, fine.answered,
    fine.atMostOnce, fine.reports, fun m active now => ?_, fun m active ready => ?_⟩
  · rcases eq_or_ne m n with rfl | other
    · exact (may (by simpa using now)).1
    · exact fine.sleepers m active (by simpa [other] using now)
  · rcases eq_or_ne m n with rfl | other
    · cases asleep with
      | true => simp [(may rfl).2] at ready
      | false => simp
    · simpa [other] using fine.awake m active ready

/-- **Every event that can happen does to the queue what it should.** -/
theorem acts (fine : WellFormed s queue) {event : Event ι} (allows : s.Allows event) :
    Acts s queue event := by
  cases event with
  | wait n kind => exact fine.wait allows kind
  | timeout n => exact fine.timeout allows.1
  | signal => exact fine.signal
  | broadcast => exact fine.broadcast
  | leave n =>
      obtain ⟨active, ready, -⟩ := allows
      refine ⟨_, rfl, fine.goOn active ready ?_, fun m => ?_⟩
      · split <;> simp
      · simp [Event.wakes, Event.woken, State.leave]
  | wakeUp n => exact ⟨_, rfl, fine.setSleeping nofun, fun m => by simp [Event.wakes, Event.woken]⟩
  | sleep n =>
      exact ⟨_, rfl, fine.setSleeping fun _ => ⟨allows.1, allows.2.1⟩, fun m => by
        simp [Event.wakes, Event.woken]⟩

omit [DecidableEq ι] in
theorem of_starts (starts : Starts s) : WellFormed s [] where
  shape := ⟨starts.head, starts.tail, List.isChain_nil⟩
  nodup := List.nodup_nil
  waiting n := by simp [starts.waits n]
  order := .nil
  past := nofun
  short := Nat.zero_le _
  answered n active := absurd (starts.waits n) active
  atMostOnce n := by simp [starts.wakes n]
  reports n _ timedOut reported := by simp [starts.timedOut n] at reported
  sleepers n active := absurd (starts.waits n) active
  awake n active := absurd (starts.waits n) active

end WellFormed

/-- **The waitlist is a queue that wakes every waiter at most once.** -/
theorem waitlist_fifo {s : State ι} (reachable : (waitlists ι).Reachable Machine.anyEvent s) :
    ∃ queue, WellFormed s queue ∧ ∀ event, s.Allows event → Acts s queue event := by
  suffices fine : ∃ queue, WellFormed s queue by
    obtain ⟨queue, fine⟩ := fine
    exact ⟨queue, fine, fun _ allows => fine.acts allows⟩
  refine Machine.invariant (fun s => ∃ queue, WellFormed s queue) ?_ ?_ reachable
  · exact fun s starts => ⟨[], .of_starts starts⟩
  · rintro s event t - - ⟨queue, fine⟩ step
    obtain ⟨allows, step⟩ := Option.ite_none_right_eq_some.mp step
    obtain ⟨u, result, after, -⟩ := fine.acts allows
    obtain rfl := Option.some.inj (result.symm.trans step)
    exact ⟨_, after⟩

/-- No caller waits, and no descriptor has a link. -/
def threeIdle : State (Fin 3) where
  head := none
  tail := none
  next _ := none
  prev _ := none
  ready _ := false
  sleeping _ := false
  waits _ := none
  timedOut _ := none
  wakes _ := 0
  since _ := 0
  clock := 0

/-- A timed wait between a ULT and an external thread times out, and a signal wakes the
ULT. -/
theorem waitlist_fifo_timeout :
    ∃ s : State (Fin 3), (∃ queue, WellFormed s queue) ∧ s.timedOut 1 = some true ∧
      s.ready 0 = true ∧ s.head = some 2 := by
  obtain ⟨s, reachable, result⟩ := Machine.exists_reachable_of_play Machine.anyEvent
    (M := waitlists (Fin 3)) (s := threeIdle)
    ⟨rfl, rfl, fun _ => rfl, fun _ => rfl, fun _ => rfl, fun _ => rfl⟩
    [.wait 0 .ult, .wait 1 (.timed false), .wait 2 (.external true), .timeout 1, .signal]
    (fun s => s.timedOut 1 = some true ∧ s.ready 0 = true ∧ s.head = some 2) (by decide)
  obtain ⟨queue, fine, -⟩ := waitlist_fifo reachable
  exact ⟨s, ⟨queue, fine⟩, of_decide_eq_true result⟩

end ArgobotsReduction.Sync.Waitlist
