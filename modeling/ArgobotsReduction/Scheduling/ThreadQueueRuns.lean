import Mathlib.Data.Fintype.Basic
import ArgobotsReduction.Parallel.Machine
import ArgobotsReduction.Scheduling.ThreadQueue

/-!
# Thread queues as double-ended queues

Several pools have their thread queues over the same threads, and a thread is in one of
them at most.  Every operation on a pool does to the list of its queue what it does to
a list (`thread_queue_refines`): it has a result, the same one, and the queues are
those of the lists again.
-/

set_option autoImplicit false

namespace ArgobotsReduction.Scheduling.ThreadQueue

open Containers Parallel

universe u v

/-- The queues of the pools, and the threads. -/
structure State (Q : Type v) (ι : Type u) where
  queue : Q → Queue ι
  threads : Threads ι

/-- The operations on a pool. -/
inductive Operation (ι : Type u) where
  | push (thread : ι) (context : Context)
  | pushMany (threads : List ι) (context : Context)
  | pop (context : Context)
  | popWait (retries : ℕ) (context : Context)
  | popTimedwait (retries : ℕ)
  | popMany (maxThreads : ℕ) (context : Context)
  | remove (thread : ι)

/-- What an operation returns. -/
inductive Response (ι : Type u) where
  | pushed
  | popped (thread : Option ι)
  | poppedMany (threads : List ι)
  | removed (errno : Errno)
  deriving DecidableEq

variable {Q : Type v} {ι : Type u}

/-- The threads that `thread_queue_print_all` visits. -/
def State.visited (s : State Q ι) (q : Q) : List ι :=
  follow s.threads.next (s.queue q).numThreads (s.queue q).head

variable [DecidableEq Q]

def State.put (s : State Q ι) (q : Q) (queue : Queue ι) (threads : Threads ι) : State Q ι :=
  ⟨Function.update s.queue q queue, threads⟩

variable [DecidableEq ι]

/-- An operation on a pool. -/
def State.apply (pools : Q → Pool) (s : State Q ι) : Q × Operation ι →
    Option (Response ι × State Q ι)
  | (q, .push thread context) =>
      (poolPush (pools q) context (s.queue q) s.threads thread).map fun (queue, threads) =>
        (.pushed, s.put q queue threads)
  | (q, .pushMany more context) =>
      (poolPushMany (pools q) context (s.queue q) s.threads more).map fun (queue, threads) =>
        (.pushed, s.put q queue threads)
  | (q, .pop context) =>
      (poolPop (pools q) context (s.queue q) s.threads).map fun (thread, queue, threads) =>
        (.popped thread, s.put q queue threads)
  | (q, .popWait retries context) =>
      (poolPopWait (pools q) context retries (s.queue q) s.threads).map
        fun (thread, queue, threads) => (.popped thread, s.put q queue threads)
  | (q, .popTimedwait retries) =>
      (poolPopTimedwait retries (s.queue q) s.threads).map fun (thread, queue, threads) =>
        (.popped thread, s.put q queue threads)
  | (q, .popMany maxThreads context) =>
      (poolPopMany (pools q) context (s.queue q) s.threads maxThreads).map
        fun (popped, queue, threads) => (.poppedMany popped, s.put q queue threads)
  | (q, .remove thread) =>
      (poolRemove (s.queue q) s.threads thread).map fun (errno, queue, threads) =>
        (.removed errno, s.put q queue threads)

/-- Pushes of single threads. -/
def pushEach (pools : Q → Pool) (q : Q) (context : Context) (s : State Q ι) :
    List ι → Option (State Q ι)
  | [] => some s
  | thread :: rest =>
      (s.apply pools (q, .push thread context)).bind fun result =>
        pushEach pools q context result.2 rest

/-- Pops of single threads, until there is none any more. -/
def popEach (pools : Q → Pool) (q : Q) (context : Context) (s : State Q ι) :
    ℕ → Option (List ι × State Q ι)
  | 0 => some ([], s)
  | count + 1 =>
      (s.apply pools (q, .pop context)).bind fun
        | (.popped (some thread), s) =>
            (popEach pools q context s count).map fun (popped, s) => (thread :: popped, s)
        | (_, s) => some ([], s)

/-- What an operation does to the lists. -/
def abstractly (pools : Q → Pool) (lists : Q → List ι) : Q × Operation ι →
    Response ι × (Q → List ι)
  | (q, .push thread context) =>
      let side := (pools q).kind.pushSide context
      (.pushed, Function.update lists q (side.push thread (lists q)))
  | (q, .pushMany more context) =>
      let side := (pools q).kind.pushSide context
      (.pushed, Function.update lists q (side.pushAll more (lists q)))
  | (q, .pop context) =>
      let side := (pools q).kind.popSide context
      (.popped (side.peek (lists q)), Function.update lists q (side.drop (lists q)))
  | (q, .popWait _ context) =>
      let side := (pools q).kind.popSide context
      (.popped (side.peek (lists q)), Function.update lists q (side.drop (lists q)))
  | (q, .popTimedwait _) =>
      (.popped (End.head.peek (lists q)), Function.update lists q (End.head.drop (lists q)))
  | (q, .popMany maxThreads context) =>
      let popped := ((pools q).kind.popSide context).popAll maxThreads (lists q)
      (.poppedMany popped.1, Function.update lists q popped.2)
  | (q, .remove thread) =>
      if thread ∈ lists q then
        (.removed .success, Function.update lists q ((lists q).erase thread))
      else (.removed .errPool, lists)

omit [DecidableEq Q] [DecidableEq ι] in
/-- A thread is pushed when it is in no queue, and removed from its own queue. -/
def Allowed (lists : Q → List ι) : Q × Operation ι → Prop
  | (_, .push thread _) => ∀ r, thread ∉ lists r
  | (_, .pushMany more _) => more.Nodup ∧ ∀ thread ∈ more, ∀ r, thread ∉ lists r
  | (q, .remove thread) => ∀ r, r ≠ q → thread ∉ lists r
  | _ => True

instance [Fintype Q] (lists : Q → List ι) : ∀ event, Decidable (Allowed lists event)
  | (_, .push thread _) => inferInstanceAs (Decidable (∀ r, thread ∉ lists r))
  | (_, .pushMany more _) =>
      inferInstanceAs (Decidable (more.Nodup ∧ ∀ thread ∈ more, ∀ r, thread ∉ lists r))
  | (_, .pop _) => inferInstanceAs (Decidable True)
  | (_, .popWait _ _) => inferInstanceAs (Decidable True)
  | (_, .popTimedwait _) => inferInstanceAs (Decidable True)
  | (_, .popMany _ _) => inferInstanceAs (Decidable True)
  | (q, .remove thread) => inferInstanceAs (Decidable (∀ r, r ≠ q → thread ∉ lists r))

/-- The pools, with their lists beside them. -/
def queues (pools : Q → Pool) : Machine (State Q ι × (Q → List ι)) (Q × Operation ι) where
  init s := (∀ q, s.1.queue q = init) ∧ (∀ thread, s.1.threads.isInPool thread = false) ∧
    ∀ q, s.2 q = []
  step s event := (s.1.apply pools event).map fun result =>
    (result.2, (abstractly pools s.2 event).2)

/-! ## Queues and lists -/

omit [DecidableEq Q] [DecidableEq ι] in
/-- A thread is in one queue or in another one. -/
theorem exists_iff_or {lists : Q → List ι} {thread : ι} (q : Q) :
    (∃ r, thread ∈ lists r) ↔ thread ∈ lists q ∨ ∃ r, r ≠ q ∧ thread ∈ lists r := by
  constructor
  · rintro ⟨r, member⟩
    rcases eq_or_ne r q with rfl | other
    · exact .inl member
    · exact .inr ⟨r, other, member⟩
  · rintro (member | ⟨r, -, member⟩)
    · exact ⟨q, member⟩
    · exact ⟨r, member⟩

omit [DecidableEq Q] [DecidableEq ι] in
/-- The queues consist of the threads of the lists, and a thread is in one of them at most. -/
structure Represents (s : State Q ι) (lists : Q → List ι) : Prop where
  shape : ∀ q, Shape (s.queue q) s.threads (lists q)
  nodup : ∀ q, (lists q).Nodup
  apart : ∀ q r thread, thread ∈ lists q → thread ∈ lists r → q = r
  inPool : ∀ thread, s.threads.isInPool thread = true ↔ ∃ q, thread ∈ lists q

namespace Represents

variable {s : State Q ι} {lists : Q → List ι} {q : Q} {list' : List ι} {queue' : Queue ι}
  {threads' : Threads ι} {thread : ι} {pools : Q → Pool}

omit [DecidableEq ι] in
/-- One queue and the threads in it change. -/
theorem put (represents : Represents s lists) (shape : Shape queue' threads' list')
    (nodup : list'.Nodup)
    (away : ∀ r, r ≠ q → ∀ thread ∈ lists r, thread ∉ list' ∧
      threads'.next thread = s.threads.next thread ∧ threads'.prev thread = s.threads.prev thread)
    (inPool : ∀ thread, threads'.isInPool thread = true ↔
      thread ∈ list' ∨ ∃ r, r ≠ q ∧ thread ∈ lists r) :
    Represents (s.put q queue' threads') (Function.update lists q list') where
  shape r := by
    rcases eq_or_ne r q with rfl | other
    · simpa [State.put] using shape
    · simpa [State.put, other] using
        (represents.shape r).congr fun thread member => (away r other thread member).2
  nodup r := by
    rcases eq_or_ne r q with rfl | other
    · simpa using nodup
    · simpa [other] using represents.nodup r
  apart r₁ r₂ thread := by
    rcases eq_or_ne r₁ q with same₁ | other₁ <;> rcases eq_or_ne r₂ q with same₂ | other₂
    · exact fun _ _ => same₁.trans same₂.symm
    · intro first second
      subst same₁
      rw [Function.update_self] at first
      rw [Function.update_of_ne other₂] at second
      exact absurd first (away r₂ other₂ thread second).1
    · intro first second
      subst same₂
      rw [Function.update_of_ne other₁] at first
      rw [Function.update_self] at second
      exact absurd second (away r₁ other₁ thread first).1
    · intro first second
      rw [Function.update_of_ne other₁] at first
      rw [Function.update_of_ne other₂] at second
      exact represents.apart r₁ r₂ thread first second
  inPool thread := by
    refine (inPool thread).trans ⟨?_, ?_⟩
    · rintro (here | ⟨r, other, there⟩)
      · exact ⟨q, by simpa using here⟩
      · exact ⟨r, by simpa [other] using there⟩
    · rintro ⟨r, member⟩
      rcases eq_or_ne r q with rfl | other
      · exact .inl (by simpa using member)
      · exact .inr ⟨r, other, by simpa [other] using member⟩

/-- A thread is pushed. -/
theorem push (represents : Represents s lists) (absent : ∀ r, thread ∉ lists r) (q : Q)
    (side : End) :
    ∃ queue' threads', push side (s.queue q) s.threads thread = some (queue', threads') ∧
      Represents (s.put q queue' threads')
        (Function.update lists q (side.push thread (lists q))) := by
  obtain ⟨queue', threads', pushed, shape, inPool, apart⟩ :=
    (represents.shape q).push (represents.nodup q) (absent q) side
  refine ⟨queue', threads', pushed, represents.put shape
    (End.nodup_push (absent q) (represents.nodup q)) (fun r other t member => ?_) fun t => ?_⟩
  · have notThread : t ≠ thread := ne_of_mem_of_not_mem member (absent r)
    have notHere : t ∉ lists q := fun here => other (represents.apart r q t member here)
    exact ⟨by simp [End.mem_push, notThread, notHere], apart t (by simp [notThread, notHere])⟩
  · rw [inPool, End.mem_push]
    rcases eq_or_ne t thread with rfl | notThread
    · simp
    · rw [Function.update_of_ne notThread, represents.inPool]
      simp only [notThread, false_or]
      exact exists_iff_or q

/-- A thread is taken away. -/
theorem take {rest : List ι} (represents : Represents s lists) (q : Q)
    (shape : Shape queue' threads' rest) (sublist : List.Sublist rest (lists q))
    (members : ∀ t, t ∈ lists q ↔ t = thread ∨ t ∈ rest) (absent : thread ∉ rest)
    (inPool : threads'.isInPool = Function.update s.threads.isInPool thread false)
    (apart : Apart s.threads threads' (lists q)) :
    Represents (s.put q queue' threads') (Function.update lists q rest) := by
  refine represents.put shape ((represents.nodup q).sublist sublist) (fun r other t member => ?_)
    fun t => ?_
  · have notHere : t ∉ lists q := fun here => other (represents.apart r q t member here)
    exact ⟨fun inRest => notHere (sublist.subset inRest), apart t notHere⟩
  · rw [inPool]
    rcases eq_or_ne t thread with rfl | notThread
    · have mine : t ∈ lists q := (members t).mpr (.inl rfl)
      simp only [Function.update_self, absent, false_or, Bool.false_eq_true, false_iff]
      rintro ⟨r, other, there⟩
      exact other (represents.apart r q t there mine)
    · rw [Function.update_of_ne notThread, represents.inPool, exists_iff_or q, members t]
      simp [notThread]

/-- The thread at an end is popped. -/
theorem pop_some {side : End} (represents : Represents s lists)
    (peek : side.peek (lists q) = some thread) :
    ∃ queue' threads', pop side (s.queue q) s.threads = some (some thread, queue', threads') ∧
      Represents (s.put q queue' threads') (Function.update lists q (side.drop (lists q))) := by
  have split := End.push_drop peek
  have members : ∀ t, t ∈ lists q ↔ t = thread ∨ t ∈ side.drop (lists q) := fun t => by
    rw [← End.mem_push, split]
  have nodup : (thread :: side.drop (lists q)).Nodup := by
    rw [← (side.push_perm thread _).nodup_iff, split]
    exact represents.nodup q
  have shape : Shape (s.queue q) s.threads (side.push thread (side.drop (lists q))) := by
    rw [split]
    exact represents.shape q
  obtain ⟨queue', threads', popped, shape', inPool, apart⟩ := shape.pop nodup
  refine ⟨queue', threads', popped, represents.take q shape' (side.drop_sublist _) members
    (List.nodup_cons.mp nodup).1 inPool fun t outside => apart t ?_⟩
  rwa [List.mem_cons, ← members t]

omit [DecidableEq Q] in
/-- An empty queue has nothing to pop. -/
theorem pop_none {side : End} (represents : Represents s lists)
    (peek : side.peek (lists q) = none) :
    pop side (s.queue q) s.threads = some (none, s.queue q, s.threads) :=
  Shape.pop_nil (End.peek_eq_none.mp peek ▸ represents.shape q) side

omit [DecidableEq ι] in
theorem put_self (s : State Q ι) (q : Q) : s.put q (s.queue q) s.threads = s := by
  rw [State.put, Function.update_eq_self]

/-- **A pop takes what is at its end, if there is anything.** -/
theorem pop_end (represents : Represents s lists) (q : Q) (side : End) :
    ∃ queue' threads', pop side (s.queue q) s.threads =
        some (side.peek (lists q), queue', threads') ∧
      Represents (s.put q queue' threads') (Function.update lists q (side.drop (lists q))) := by
  cases peek : side.peek (lists q) with
  | none =>
      have empty := End.peek_eq_none.mp peek
      have same : Function.update lists q (side.drop (lists q)) = lists := by
        rw [empty, End.drop_nil, ← empty, Function.update_eq_self]
      refine ⟨_, _, represents.pop_none peek, ?_⟩
      rw [put_self, same]
      exact represents
  | some thread => exact represents.pop_some peek

/-- **A loop of pushes.** -/
theorem pushMany {more : List ι} (represents : Represents s lists) (nodup : more.Nodup)
    (absent : ∀ thread ∈ more, ∀ r, thread ∉ lists r) (q : Q) (pool : Pool) (context : Context) :
    ∃ queue' threads',
      poolPushMany pool context (s.queue q) s.threads more = some (queue', threads') ∧
        Represents (s.put q queue' threads') (Function.update lists q
          ((pool.kind.pushSide context).pushAll more (lists q))) := by
  induction more generalizing s lists with
  | nil => exact ⟨_, _, rfl, by simpa [put_self, End.pushAll] using represents⟩
  | cons thread more ih =>
      obtain ⟨notMore, nodup⟩ := List.nodup_cons.mp nodup
      obtain ⟨queue₁, threads₁, pushed, represents₁⟩ :=
        represents.push (absent thread List.mem_cons_self) q (pool.kind.pushSide context)
      have absent₁ : ∀ other ∈ more, ∀ r, other ∉ Function.update lists q
          ((pool.kind.pushSide context).push thread (lists q)) r := by
        intro other member r
        have before := absent other (List.mem_cons_of_mem _ member)
        rcases eq_or_ne r q with rfl | different
        · rw [Function.update_self, End.mem_push, not_or]
          exact ⟨ne_of_mem_of_not_mem member notMore, before r⟩
        · rw [Function.update_of_ne different]
          exact before r
      obtain ⟨queue', threads', loop, represents'⟩ := ih represents₁ nodup absent₁
      refine ⟨queue', threads', ?_, ?_⟩
      · rw [poolPushMany, pushed]
        simpa [State.put] using loop
      · simpa [State.put, End.pushAll] using represents'

/-- **A loop of pops.** -/
theorem popLoop (represents : Represents s lists) (q : Q) (side : End) (count : ℕ) :
    ∃ queue' threads', popLoop side (s.queue q) s.threads count =
        some ((side.popAll count (lists q)).1, queue', threads') ∧
      Represents (s.put q queue' threads')
        (Function.update lists q (side.popAll count (lists q)).2) := by
  induction count generalizing s lists with
  | zero => exact ⟨_, _, rfl, by simpa [put_self, End.popAll] using represents⟩
  | succ count ih =>
      cases peek : side.peek (lists q) with
      | none =>
          refine ⟨s.queue q, s.threads, ?_, ?_⟩
          · rw [ThreadQueue.popLoop, represents.pop_none peek, End.popAll, peek]
            rfl
          · simpa [put_self, End.popAll, peek] using represents
      | some thread =>
          obtain ⟨queue₁, threads₁, popped, represents₁⟩ := represents.pop_some peek
          obtain ⟨queue', threads', loop, represents'⟩ := ih represents₁
          refine ⟨queue', threads', ?_, ?_⟩
          · simp only [State.put, Function.update_self] at loop
            rw [ThreadQueue.popLoop, popped, Option.bind_some]
            simp only [loop, Option.map_some, End.popAll, peek]
          · simpa [State.put, End.popAll, peek] using represents'

/-- **A thread is removed from its queue, and from no other one.** -/
theorem remove (represents : Represents s lists) (q : Q)
    (absent : ∀ r, r ≠ q → thread ∉ lists r) :
    (thread ∈ lists q → ∃ queue' threads', threadQueueRemove (s.queue q) s.threads thread =
        some (.success, queue', threads') ∧ Represents (s.put q queue' threads')
          (Function.update lists q ((lists q).erase thread))) ∧
      (thread ∉ lists q → threadQueueRemove (s.queue q) s.threads thread =
        some (.errPool, s.queue q, s.threads)) := by
  refine ⟨fun member => ?_, fun notHere => ?_⟩
  · obtain ⟨front, back, split⟩ := List.append_of_mem member
    have nodup := split ▸ represents.nodup q
    have notFront : thread ∉ front := fun inFront =>
      (List.nodup_append.mp nodup).2.2 thread inFront thread List.mem_cons_self rfl
    have notBack : thread ∉ back := (List.nodup_cons.mp (List.nodup_append.mp nodup).2.1).1
    have erased : (lists q).erase thread = front ++ back := by
      rw [split, List.erase_append_right _ notFront, List.erase_cons_head]
    have inPool : s.threads.isInPool thread = true := (represents.inPool thread).mpr ⟨q, member⟩
    obtain ⟨queue', threads', removed, shape, inPool', apart⟩ :=
      Shape.remove (split ▸ represents.shape q) nodup inPool
    rw [erased]
    refine ⟨queue', threads', removed, represents.take q shape (erased ▸ List.erase_sublist)
      (fun t => ?_) ?_ inPool' (split ▸ apart)⟩
    · simp [split, or_left_comm]
    · simp [notFront, notBack]
  · have notInPool : s.threads.isInPool thread = false := by
      rw [← Bool.not_eq_true, represents.inPool]
      rintro ⟨r, there⟩
      rcases eq_or_ne r q with rfl | other
      · exact notHere there
      · exact absent r other there
    rw [threadQueueRemove, if_pos notInPool]
    exact ite_self _

omit [DecidableEq Q] in
/-- The flag of the queue says whether there is anything to pop. -/
theorem popShared_eq (represents : Represents s lists) (q : Q) (side : End) :
    popShared side (s.queue q) s.threads = pop side (s.queue q) s.threads := by
  by_cases empty : lists q = []
  · rw [popShared, represents.pop_none (End.peek_eq_none.mpr empty)]
    exact ite_self _
  · have takes : acquires (s.queue q) = true := by
      simp [acquires, (represents.shape q).isEmpty, empty]
    exact if_pos takes

omit [DecidableEq Q] in
theorem poolPop_eq (represents : Represents s lists) (q : Q) (pool : Pool) (context : Context) :
    poolPop pool context (s.queue q) s.threads =
      pop (pool.kind.popSide context) (s.queue q) s.threads := by
  rw [poolPop]
  cases pool.access with
  | priv => rfl
  | shared => exact represents.popShared_eq q _

/-- Another try finds what the first one has found. -/
theorem popUntil_eq (represents : Represents s lists) (q : Q) (side : End) (retries : ℕ) :
    popUntil side (s.queue q) s.threads retries = pop side (s.queue q) s.threads := by
  induction retries with
  | zero => exact represents.popShared_eq q side
  | succ retries ih =>
      rw [popUntil, represents.popShared_eq q side]
      cases peek : side.peek (lists q) with
      | none =>
          rw [represents.pop_none peek] at ih ⊢
          exact ih
      | some thread =>
          obtain ⟨queue', threads', popped, -⟩ := represents.pop_some peek
          rw [popped]
          rfl

omit [DecidableEq Q] in
theorem poolPopMany_eq (represents : Represents s lists) (q : Q) (pool : Pool) (context : Context)
    (maxThreads : ℕ) : poolPopMany pool context (s.queue q) s.threads maxThreads =
      ThreadQueue.popLoop (pool.kind.popSide context) (s.queue q) s.threads maxThreads := by
  rw [poolPopMany]
  cases pool.access with
  | priv => rfl
  | shared =>
      cases maxThreads with
      | zero => rfl
      | succ count =>
          by_cases empty : lists q = []
          · have peek : (pool.kind.popSide context).peek (lists q) = none :=
              End.peek_eq_none.mpr empty
            rw [ThreadQueue.popLoop, represents.pop_none peek]
            exact ite_self _
          · have takes : acquires (s.queue q) = true := by
              simp [acquires, (represents.shape q).isEmpty, empty]
            exact if_pos ⟨Nat.succ_ne_zero count, takes⟩

/-- **A push of many threads is as many pushes.** -/
theorem pushEach_eq (pools : Q → Pool) (q : Q) (context : Context) (s : State Q ι)
    (more : List ι) : pushEach pools q context s more =
      (poolPushMany (pools q) context (s.queue q) s.threads more).map fun (queue, threads) =>
        s.put q queue threads := by
  induction more generalizing s with
  | nil => exact congrArg some (put_self s q).symm
  | cons thread more ih =>
      rw [pushEach, State.apply, poolPush, poolPushMany]
      cases ThreadQueue.push ((pools q).kind.pushSide context) (s.queue q) s.threads thread with
      | none => rfl
      | some result =>
          obtain ⟨queue, threads⟩ := result
          simp only [Option.map_some, Option.bind_some, ih]
          simp only [State.put, Function.update_self, Function.update_idem]

/-- **A pop of many threads is as many pops.** -/
theorem popEach_eq (represents : Represents s lists) (q : Q) (context : Context) (count : ℕ) :
    popEach pools q context s count =
      (ThreadQueue.popLoop ((pools q).kind.popSide context) (s.queue q) s.threads count).map
        fun (popped, queue, threads) => (popped, s.put q queue threads) := by
  induction count generalizing s lists with
  | zero => exact congrArg (fun s => some ([], s)) (put_self s q).symm
  | succ count ih =>
      rw [popEach, State.apply, represents.poolPop_eq, ThreadQueue.popLoop]
      cases peek : ((pools q).kind.popSide context).peek (lists q) with
      | none =>
          rw [represents.pop_none peek]
          rfl
      | some thread =>
          obtain ⟨queue₁, threads₁, popped, represents₁⟩ := represents.pop_some peek
          rw [popped]
          simp only [Option.map_some, Option.bind_some, ih represents₁, Option.map_map]
          simp only [State.put, Function.update_self, Function.update_idem]
          rfl

end Represents

/-- An operation does to a pool what it does to a list. -/
structure Acts (pools : Q → Pool) (s : State Q ι) (lists : Q → List ι)
    (event : Q × Operation ι) : Prop where
  result : ∃ s', s.apply pools event = some ((abstractly pools lists event).1, s') ∧
    Represents s' (abstractly pools lists event).2
  pushMany : ∀ q more context, event = (q, .pushMany more context) →
    s.apply pools event = (pushEach pools q context s more).map fun s => (.pushed, s)
  popMany : ∀ q maxThreads context, event = (q, .popMany maxThreads context) →
    s.apply pools event = (popEach pools q context s maxThreads).map fun (popped, s) =>
      (.poppedMany popped, s)
  absent : ∀ q thread, event = (q, .remove thread) → (∀ r, thread ∉ lists r) →
    s.apply pools event = some (.removed .errPool, s)

theorem Represents.result {s : State Q ι} {lists : Q → List ι} (represents : Represents s lists)
    (pools : Q → Pool) {event : Q × Operation ι} (allowed : Allowed lists event) :
    ∃ s', s.apply pools event = some ((abstractly pools lists event).1, s') ∧
      Represents s' (abstractly pools lists event).2 := by
  obtain ⟨q, operation⟩ := event
  cases operation with
  | push thread context =>
      obtain ⟨queue', threads', pushed, represents'⟩ := represents.push allowed q _
      exact ⟨_, congrArg (Option.map _) pushed, represents'⟩
  | pushMany more context =>
      obtain ⟨queue', threads', pushed, represents'⟩ :=
        represents.pushMany allowed.1 allowed.2 q (pools q) context
      exact ⟨_, congrArg (Option.map _) pushed, represents'⟩
  | pop context =>
      obtain ⟨queue', threads', popped, represents'⟩ :=
        represents.pop_end q ((pools q).kind.popSide context)
      rw [State.apply, represents.poolPop_eq, popped]
      exact ⟨_, rfl, represents'⟩
  | popWait retries context =>
      obtain ⟨queue', threads', popped, represents'⟩ :=
        represents.pop_end q ((pools q).kind.popSide context)
      rw [State.apply, poolPopWait, represents.popUntil_eq, popped]
      exact ⟨_, rfl, represents'⟩
  | popTimedwait retries =>
      obtain ⟨queue', threads', popped, represents'⟩ := represents.pop_end q .head
      rw [State.apply, poolPopTimedwait, represents.popUntil_eq, popped]
      exact ⟨_, rfl, represents'⟩
  | popMany maxThreads context =>
      obtain ⟨queue', threads', popped, represents'⟩ :=
        represents.popLoop q ((pools q).kind.popSide context) maxThreads
      rw [State.apply, represents.poolPopMany_eq, popped]
      exact ⟨_, rfl, represents'⟩
  | remove thread =>
      obtain ⟨here, absent⟩ := represents.remove q allowed
      rw [State.apply, poolRemove, abstractly]
      split
      next member =>
        obtain ⟨queue', threads', removed, represents'⟩ := here member
        rw [removed]
        exact ⟨_, rfl, represents'⟩
      next notMember =>
        rw [absent notMember]
        refine ⟨_, rfl, ?_⟩
        rw [Represents.put_self]
        exact represents

theorem Represents.acts {s : State Q ι} {lists : Q → List ι} (represents : Represents s lists)
    (pools : Q → Pool) {event : Q × Operation ι} (allowed : Allowed lists event) :
    Acts pools s lists event where
  result := represents.result pools allowed
  pushMany q more context same := by
    subst same
    rw [pushEach_eq, State.apply, Option.map_map]
    rfl
  popMany q maxThreads context same := by
    subst same
    rw [represents.popEach_eq, State.apply, represents.poolPopMany_eq, Option.map_map]
    rfl
  absent q thread same absent := by
    subst same
    rw [State.apply, poolRemove, (represents.remove q allowed).2 (absent q)]
    exact congrArg (fun s => some (Response.removed .errPool, s)) (Represents.put_self s q)

/-- **The thread queues refine double-ended queues.** -/
theorem thread_queue_refines {Q : Type v} {ι : Type u} [DecidableEq Q] [DecidableEq ι]
    {pools : Q → Pool} {s : State Q ι} {lists : Q → List ι}
    (reachable : (queues pools).Reachable (fun state event => Allowed state.2 event) (s, lists)) :
    Represents s lists ∧ (∀ q, s.visited q = lists q) ∧
      ∀ event, Allowed lists event → Acts pools s lists event := by
  suffices represents : Represents s lists by
    refine ⟨represents, fun q => ?_, fun event allowed => represents.acts pools allowed⟩
    rw [State.visited, (represents.shape q).numThreads, (represents.shape q).head]
    exact (represents.shape q).circular.follow
  refine Machine.invariant (fun state : State Q ι × (Q → List ι) => Represents state.1 state.2) ?_
    ?_ reachable
  · rintro ⟨s, lists⟩ ⟨queues, notInPool, empty⟩
    refine ⟨fun q => ?_, fun q => ?_, fun q r thread here => ?_, fun thread => ?_⟩
    · rw [queues q, empty q]
      exact .init
    · rw [empty q]
      exact .nil
    · rw [empty q] at here
      cases here
    · rw [notInPool thread]
      refine iff_of_false nofun ?_
      rintro ⟨q, here⟩
      rw [empty q] at here
      cases here
  · rintro ⟨s, lists⟩ event next - allowed represents step
    obtain ⟨result, applied, rfl⟩ := Option.map_eq_some_iff.mp step
    obtain ⟨s', same, represents'⟩ := represents.result pools allowed
    obtain rfl := Option.some.inj (same.symm.trans applied)
    exact represents'

/-- A shared RANDWS pool and a private FIFO pool. -/
def twoPools : Fin 2 → Pool
  | 0 => ⟨.randws, .shared⟩
  | 1 => ⟨.fifo, .priv⟩

def twoEmpty : State (Fin 2) (Fin 5) :=
  ⟨fun _ => init, ⟨fun _ => none, fun _ => none, fun _ => false⟩⟩

/-- New threads are pushed at the head of a RANDWS pool, one of them is removed and the last
one is popped by another than the owner. -/
theorem thread_queue_refines_two :
    ∃ state : State (Fin 2) (Fin 5) × (Fin 2 → List (Fin 5)), Represents state.1 state.2 ∧
      state.2 0 = [3, 1] ∧ state.2 1 = [4, 0] := by
  obtain ⟨state, reachable, lists⟩ := Machine.exists_reachable_of_play
    (fun state event => Allowed state.2 event) (M := queues twoPools)
    (s := (twoEmpty, fun _ => [])) ⟨fun _ => rfl, fun _ => rfl, fun _ => rfl⟩
    [(0, .pushMany [0, 1, 2, 3] 0x1000), (1, .push 4 0), (0, .remove 2), (0, .remove 2),
      (0, .pop 0x200), (1, .push 0 0x1000)]
    (fun state => state.2 0 = [3, 1] ∧ state.2 1 = [4, 0]) (by decide)
  exact ⟨state, (thread_queue_refines reachable).1, of_decide_eq_true lists⟩

end ArgobotsReduction.Scheduling.ThreadQueue
