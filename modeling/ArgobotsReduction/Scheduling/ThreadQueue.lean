import Mathlib.Data.List.Nodup
import ArgobotsReduction.Containers.Circle
import ArgobotsReduction.Parallel.Machine

/-!
# The thread queue of the built-in pools

A thread queue is a circular list through the links of its threads, with its first and
its last thread, their number, and a flag that says whether there are any.  The pools
choose an end by the context of an operation: a FIFO pool pushes at the tail and pops at
the head, and a RANDWS pool pushes new threads at the head and lets others
than its owner pop at the tail.

An operation on a pool is one under the lock of the pool.  Where the source reads
a field through a null pointer, the operation has no result.
-/

set_option autoImplicit false

namespace ArgobotsReduction.Scheduling.ThreadQueue

open Containers Parallel

universe u v

/-- `thread_queue_t` -/
structure Queue (ι : Type u) where
  numThreads : ℕ
  head : Option ι
  tail : Option ι
  isEmpty : Bool
  deriving DecidableEq

/-- The fields of all threads that the queues use. -/
structure Threads (ι : Type u) where
  prev : ι → Option ι
  next : ι → Option ι
  isInPool : ι → Bool

/-- `ABT_SUCCESS` and `ABT_ERR_POOL` -/
inductive Errno where
  | success
  | errPool
  deriving DecidableEq

variable {ι : Type u}

/-- `thread_queue_init` -/
def init : Queue ι := ⟨0, none, none, true⟩

/-- The thread at an end. -/
def Queue.at (queue : Queue ι) : End → Option ι
  | .head => queue.head
  | .tail => queue.tail

/-- Another thread is at an end. -/
def Queue.set (queue : Queue ι) (side : End) (thread : Option ι) : Queue ι :=
  match side with
  | .head => { queue with head := thread }
  | .tail => { queue with tail := thread }

/-- There is one thread more. -/
def Queue.grow (queue : Queue ι) : Queue ι := { queue with numThreads := queue.numThreads + 1 }

/-- There is one thread less. -/
def Queue.shrink (queue : Queue ι) : Queue ι := { queue with numThreads := queue.numThreads - 1 }

@[simp]
theorem Queue.numThreads_set (queue : Queue ι) (side : End) (thread : Option ι) :
    (queue.set side thread).numThreads = queue.numThreads := by
  cases side <;> rfl

@[simp]
theorem Queue.isEmpty_set (queue : Queue ι) (side : End) (thread : Option ι) :
    (queue.set side thread).isEmpty = queue.isEmpty := by
  cases side <;> rfl

variable [DecidableEq ι]

namespace Threads

def setPrev (threads : Threads ι) (thread : ι) (link : Option ι) : Threads ι :=
  { threads with prev := Function.update threads.prev thread link }

def setNext (threads : Threads ι) (thread : ι) (link : Option ι) : Threads ι :=
  { threads with next := Function.update threads.next thread link }

def setInPool (threads : Threads ι) (thread : ι) (value : Bool) : Threads ι :=
  { threads with isInPool := Function.update threads.isInPool thread value }

/-- The neighbours of a thread are linked with each other. -/
def unlink (threads : Threads ι) (thread : ι) : Option (Threads ι) :=
  (threads.prev thread).bind fun before =>
    let threads := threads.setNext before (threads.next thread)
    (threads.next thread).map fun after => threads.setPrev after (threads.prev thread)

/-- The thread that is next to the one at an end. -/
def inner (threads : Threads ι) (thread : ι) : End → Option ι
  | .head => threads.next thread
  | .tail => threads.prev thread

end Threads

/-- An end of the queue moves on from a thread. -/
def Queue.cut (queue : Queue ι) (threads : Threads ι) (thread : ι) : Queue ι :=
  if some thread = queue.head then queue.set .head (threads.next thread)
  else if some thread = queue.tail then queue.set .tail (threads.prev thread)
  else queue

/-- `thread_queue_push_head` and `thread_queue_push_tail` -/
def push (side : End) (queue : Queue ι) (threads : Threads ι) (thread : ι) :
    Option (Queue ι × Threads ι) :=
  if queue.numThreads = 0 then
    let threads := threads.setPrev thread (some thread)
    let threads := threads.setNext thread (some thread)
    some (⟨1, some thread, some thread, false⟩, threads.setInPool thread true)
  else
    queue.head.bind fun head => queue.tail.bind fun tail =>
      let threads := threads.setNext tail (some thread)
      let threads := threads.setPrev head (some thread)
      let threads := threads.setPrev thread (some tail)
      let threads := threads.setNext thread (some head)
      some ((queue.set side (some thread)).grow, threads.setInPool thread true)

def threadQueuePushHead : Queue ι → Threads ι → ι → Option (Queue ι × Threads ι) := push .head

def threadQueuePushTail : Queue ι → Threads ι → ι → Option (Queue ι × Threads ι) := push .tail

/-- `thread_queue_pop_head` and `thread_queue_pop_tail` -/
def pop (side : End) (queue : Queue ι) (threads : Threads ι) :
    Option (Option ι × Queue ι × Threads ι) :=
  if 0 < queue.numThreads then
    (queue.at side).bind fun thread =>
      (if queue.numThreads = 1 then some (init, threads)
        else (threads.unlink thread).map fun threads =>
          ((queue.set side (threads.inner thread side)).shrink, threads)).map
      fun (queue, threads) =>
        let threads := threads.setPrev thread none
        let threads := threads.setNext thread none
        (some thread, queue, threads.setInPool thread false)
  else some (none, queue, threads)

def threadQueuePopHead : Queue ι → Threads ι → Option (Option ι × Queue ι × Threads ι) := pop .head

def threadQueuePopTail : Queue ι → Threads ι → Option (Option ι × Queue ι × Threads ι) := pop .tail

/-- `thread_queue_remove` -/
def threadQueueRemove (queue : Queue ι) (threads : Threads ι) (thread : ι) :
    Option (Errno × Queue ι × Threads ι) :=
  if queue.numThreads = 0 then some (.errPool, queue, threads)
  else if threads.isInPool thread = false then some (.errPool, queue, threads)
  else
    (if queue.numThreads = 1 then some (init, threads)
      else (threads.unlink thread).map fun threads =>
        ((queue.cut threads thread).shrink, threads)).map
    fun (queue, threads) =>
      let threads := threads.setInPool thread false
      let threads := threads.setPrev thread none
      (.success, queue, threads.setNext thread none)

/-! ## The pools -/

/-- The built-in pools that have a thread queue. -/
inductive Kind where
  | fifo
  | randws
  deriving DecidableEq

/-- Whether a pool has only one user. -/
inductive Access where
  | priv
  | shared
  deriving DecidableEq

structure Pool where
  kind : Kind
  access : Access
  deriving DecidableEq

/-- `ABT_pool_context` -/
abbrev Context := BitVec 64

/-- `POOL_CONTEXT_PUSH_HEAD`: threads that are created or revived. -/
def poolContextPushHead : Context := 0x1000 ||| 0x2000 ||| 0x4000 ||| 0x8000

/-- `POOL_CONTEXT_POP_TAIL`: the caller is a secondary owner. -/
def poolContextPopTail : Context := 0x200

/-- The end at which a pool of the kind pushes. -/
def Kind.pushSide (context : Context) : Kind → End
  | .fifo => .tail
  | .randws => if context &&& poolContextPushHead ≠ 0 then .head else .tail

/-- The end at which a pool of the kind pops. -/
def Kind.popSide (context : Context) : Kind → End
  | .fifo => .head
  | .randws => if context &&& poolContextPopTail ≠ 0 then .tail else .head

/-- `pool_push` -/
def poolPush (pool : Pool) (context : Context) (queue : Queue ι) (threads : Threads ι)
    (thread : ι) : Option (Queue ι × Threads ι) :=
  push (pool.kind.pushSide context) queue threads thread

/-- `pool_push_many` -/
def poolPushMany (pool : Pool) (context : Context) (queue : Queue ι) (threads : Threads ι) :
    List ι → Option (Queue ι × Threads ι)
  | [] => some (queue, threads)
  | thread :: rest =>
      (push (pool.kind.pushSide context) queue threads thread).bind fun (queue, threads) =>
        poolPushMany pool context queue threads rest

omit [DecidableEq ι] in
/-- `thread_queue_acquire_spinlock_if_not_empty` takes the lock of the pool. -/
def acquires (queue : Queue ι) : Bool := !queue.isEmpty

/-- A pop under the lock, unless the queue is empty. -/
def popShared (side : End) (queue : Queue ι) (threads : Threads ι) :
    Option (Option ι × Queue ι × Threads ι) :=
  if acquires queue then pop side queue threads else some (none, queue, threads)

/-- `pool_pop` -/
def poolPop (pool : Pool) (context : Context) (queue : Queue ι) (threads : Threads ι) :
    Option (Option ι × Queue ι × Threads ι) :=
  match pool.access with
  | .priv => pop (pool.kind.popSide context) queue threads
  | .shared => popShared (pool.kind.popSide context) queue threads

/-- A pop that is tried again for as long as its time allows. -/
def popUntil (side : End) (queue : Queue ι) (threads : Threads ι) :
    ℕ → Option (Option ι × Queue ι × Threads ι)
  | 0 => popShared side queue threads
  | retries + 1 =>
      (popShared side queue threads).bind fun
        | (none, queue, threads) => popUntil side queue threads retries
        | (some thread, queue, threads) => some (some thread, queue, threads)

/-- `pool_pop_wait` -/
def poolPopWait (pool : Pool) (context : Context) (retries : ℕ) (queue : Queue ι)
    (threads : Threads ι) : Option (Option ι × Queue ι × Threads ι) :=
  popUntil (pool.kind.popSide context) queue threads retries

/-- `pool_pop_timedwait`, which pops at the head in both kinds of pool. -/
def poolPopTimedwait (retries : ℕ) (queue : Queue ι) (threads : Threads ι) :
    Option (Option ι × Queue ι × Threads ι) :=
  popUntil .head queue threads retries

/-- The loop of `pool_pop_many`. -/
def popLoop (side : End) (queue : Queue ι) (threads : Threads ι) :
    ℕ → Option (List ι × Queue ι × Threads ι)
  | 0 => some ([], queue, threads)
  | count + 1 =>
      (pop side queue threads).bind fun
        | (none, queue, threads) => some ([], queue, threads)
        | (some thread, queue, threads) =>
            (popLoop side queue threads count).map fun (popped, queue, threads) =>
              (thread :: popped, queue, threads)

/-- `pool_pop_many` -/
def poolPopMany (pool : Pool) (context : Context) (queue : Queue ι) (threads : Threads ι)
    (maxThreads : ℕ) : Option (List ι × Queue ι × Threads ι) :=
  match pool.access with
  | .priv => popLoop (pool.kind.popSide context) queue threads maxThreads
  | .shared =>
      if maxThreads ≠ 0 ∧ acquires queue = true then
        popLoop (pool.kind.popSide context) queue threads maxThreads
      else some ([], queue, threads)

/-- `pool_remove` -/
def poolRemove (queue : Queue ι) (threads : Threads ι) (thread : ι) :
    Option (Errno × Queue ι × Threads ι) :=
  threadQueueRemove queue threads thread

/-! ## One queue -/

omit [DecidableEq ι] in
/-- The queue consists of the threads. -/
structure Shape (queue : Queue ι) (threads : Threads ι) (list : List ι) : Prop where
  circular : Circular threads.next threads.prev list
  head : queue.head = list.head?
  tail : queue.tail = list.getLast?
  numThreads : queue.numThreads = list.length
  isEmpty : queue.isEmpty = list.isEmpty

omit [DecidableEq ι] in
/-- The links of all other threads stay as they are. -/
def Apart (threads threads' : Threads ι) (list : List ι) : Prop :=
  ∀ thread ∉ list, threads'.next thread = threads.next thread ∧
    threads'.prev thread = threads.prev thread

section Queue

variable {queue : Queue ι} {threads threads' : Threads ι} {list rest : List ι} {thread : ι}

omit [DecidableEq ι] in
theorem Shape.init : Shape init threads [] := ⟨.nil .., rfl, rfl, rfl, rfl⟩

omit [DecidableEq ι] in
theorem Shape.at (shape : Shape queue threads list) (side : End) :
    queue.at side = side.peek list := by
  cases side with
  | head => exact shape.head
  | tail => exact shape.tail

omit [DecidableEq ι] in
/-- A queue keeps its shape when only other threads change. -/
theorem Shape.congr (shape : Shape queue threads list)
    (same : ∀ thread ∈ list, threads'.next thread = threads.next thread ∧
      threads'.prev thread = threads.prev thread) : Shape queue threads' list :=
  { shape with circular := shape.circular.congr same }

/-- **A push puts the thread at its end.** -/
theorem Shape.push (shape : Shape queue threads list) (nodup : list.Nodup)
    (absent : thread ∉ list) (side : End) :
    ∃ queue' threads', push side queue threads thread = some (queue', threads') ∧
      Shape queue' threads' (side.push thread list) ∧
        threads'.isInPool = Function.update threads.isInPool thread true ∧
          Apart threads threads' (thread :: list) := by
  rcases eq_or_ne list [] with rfl | nonempty
  · have none : queue.numThreads = 0 := shape.numThreads
    refine ⟨_, _, by rw [ThreadQueue.push, if_pos none], ?_, rfl, fun other outside => ?_⟩
    · have alone : side.push thread [] = [thread] := by cases side <;> rfl
      rw [alone]
      exact ⟨.singleton (Function.update_self ..) (Function.update_self ..), rfl, rfl, rfl, rfl⟩
    · have different : other ≠ thread := by simpa using outside
      simp [Threads.setNext, Threads.setPrev, Threads.setInPool, different]
  · have some : queue.numThreads ≠ 0 := by
      rw [shape.numThreads]
      exact fun none => nonempty (List.eq_nil_of_length_eq_zero none)
    have head := List.head?_eq_some_head nonempty
    have tail := List.getLast?_eq_some_getLast nonempty
    refine ⟨_, _, by
      rw [ThreadQueue.push, if_neg some, shape.head, shape.tail, head, tail]
      rfl, ⟨shape.circular.insert nodup absent head tail side, ?_, ?_, ?_, ?_⟩, rfl,
      fun other outside => ?_⟩
    · cases side with
      | head => rfl
      | tail => exact shape.head.trans (List.head?_append_of_ne_nil _ nonempty).symm
    · cases side with
      | head => exact shape.tail.trans (List.getLast?_cons_of_ne_nil nonempty).symm
      | tail => exact List.getLast?_concat.symm
    · rw [End.length_push, ← shape.numThreads]
      cases side <;> rfl
    · have before : queue.isEmpty = false :=
        shape.isEmpty.trans (List.isEmpty_eq_false_iff.mpr nonempty)
      rw [List.isEmpty_eq_false_iff.mpr (End.push_ne_nil side thread list)]
      cases side <;> exact before
    · have notThread : other ≠ thread := fun same => outside (same ▸ List.mem_cons_self)
      have notIn : other ∉ list := fun member => outside (List.mem_cons_of_mem _ member)
      have notFirst : other ≠ list.head nonempty := fun same =>
        notIn (same ▸ List.head_mem nonempty)
      have notLast : other ≠ list.getLast nonempty := fun same =>
        notIn (same ▸ List.getLast_mem nonempty)
      simp [Threads.setNext, Threads.setPrev, Threads.setInPool, notThread, notFirst, notLast]

/-- The neighbours of a thread are linked with each other. -/
theorem unlink_eq {first last : ι} (circular : Circular threads.next threads.prev (thread :: rest))
    (absent : thread ∉ rest) (head : rest.head? = some first) (tail : rest.getLast? = some last) :
    threads.unlink thread = some { threads with
      next := Function.update threads.next last (some first)
      prev := Function.update threads.prev first (some last) } := by
  obtain ⟨onward, back⟩ := circular.links head tail
  have notLast : thread ≠ last := (ne_of_mem_of_not_mem (List.mem_of_getLast? tail) absent).symm
  simp [Threads.unlink, Threads.setNext, Threads.setPrev, onward, back, notLast]

/-- **The others are a circle when a thread has been unlinked.** -/
theorem unlink_spec (circular : Circular threads.next threads.prev (thread :: rest))
    (nodup : (thread :: rest).Nodup) (nonempty : rest ≠ []) :
    ∃ threads', threads.unlink thread = some threads' ∧
      Circular threads'.next threads'.prev rest ∧ threads'.isInPool = threads.isInPool ∧
        Apart threads threads' rest ∧ threads'.next thread = rest.head? ∧
          threads'.prev thread = rest.getLast? := by
  have absent := (List.nodup_cons.mp nodup).1
  have head := List.head?_eq_some_head nonempty
  have tail := List.getLast?_eq_some_getLast nonempty
  obtain ⟨onward, back⟩ := circular.links head tail
  have notFirst : thread ≠ rest.head nonempty := fun same =>
    absent (same ▸ List.head_mem nonempty)
  have notLast : thread ≠ rest.getLast nonempty := fun same =>
    absent (same ▸ List.getLast_mem nonempty)
  refine ⟨_, unlink_eq circular absent head tail, circular.remove nodup head tail, rfl,
    fun other outside => ?_, ?_, ?_⟩
  · have notFirst : other ≠ rest.head nonempty := fun same =>
      outside (same ▸ List.head_mem nonempty)
    have notLast : other ≠ rest.getLast nonempty := fun same =>
      outside (same ▸ List.getLast_mem nonempty)
    simp [notFirst, notLast]
  · simp [notLast, onward, head]
  · simp [notFirst, back, tail]

/-- A thread that has left a queue. -/
def Threads.clear (threads : Threads ι) (thread : ι) : Threads ι where
  prev := Function.update threads.prev thread none
  next := Function.update threads.next thread none
  isInPool := Function.update threads.isInPool thread false

theorem Shape.clear (shape : Shape queue threads rest) (absent : thread ∉ rest) :
    Shape queue (threads.clear thread) rest :=
  shape.congr fun other member => by
    simp [Threads.clear, ne_of_mem_of_not_mem member absent]

theorem Apart.clear (apart : Apart threads threads' rest) :
    Apart threads (threads'.clear thread) (thread :: rest) := by
  intro other outside
  rw [List.mem_cons, not_or] at outside
  simpa [Threads.clear, outside.1] using apart other outside.2

/-- **A pop takes the thread at its end.** -/
theorem Shape.pop {side : End} (shape : Shape queue threads (side.push thread rest))
    (nodup : (thread :: rest).Nodup) :
    ∃ queue' threads', pop side queue threads = some (some thread, queue', threads') ∧
      Shape queue' threads' rest ∧
        threads'.isInPool = Function.update threads.isInPool thread false ∧
          Apart threads threads' (thread :: rest) := by
  have absent := (List.nodup_cons.mp nodup).1
  have count : queue.numThreads = rest.length + 1 :=
    shape.numThreads.trans (side.length_push thread rest)
  have some : 0 < queue.numThreads := count ▸ Nat.succ_pos _
  have here : queue.at side = .some thread := (shape.at side).trans (side.peek_push thread rest)
  rcases eq_or_ne rest [] with rfl | nonempty
  · refine ⟨ThreadQueue.init, threads.clear thread, ?_, Shape.init, rfl, ?_⟩
    · have one : queue.numThreads = 1 := count
      rw [ThreadQueue.pop, if_pos some, here, Option.bind_some, if_pos one]
      rfl
    · exact Apart.clear fun _ _ => ⟨rfl, rfl⟩
  · obtain ⟨threads', unlinked, circular, inPool, apart, next, prev⟩ :=
      unlink_spec shape.circular.of_push nodup nonempty
    have many : queue.numThreads ≠ 1 := fun one => by
      simp [count, nonempty] at one
    have empty : queue.isEmpty = rest.isEmpty := by
      rw [shape.isEmpty, List.isEmpty_eq_false_iff.mpr nonempty,
        List.isEmpty_eq_false_iff.mpr (side.push_ne_nil thread rest)]
    have less : queue.numThreads - 1 = rest.length := by rw [count, Nat.add_sub_cancel]
    have after : Shape (queue.set side (threads'.inner thread side)).shrink threads' rest := by
      cases side with
      | head =>
          refine ⟨circular, next, ?_, less, empty⟩
          exact shape.tail.trans (List.getLast?_cons_of_ne_nil nonempty)
      | tail =>
          refine ⟨circular, ?_, prev, less, empty⟩
          exact shape.head.trans (List.head?_append_of_ne_nil _ nonempty)
    refine ⟨_, threads'.clear thread, ?_, after.clear absent, ?_, apart.clear⟩
    · rw [ThreadQueue.pop, if_pos some, here, Option.bind_some, if_neg many, unlinked]
      rfl
    · rw [← inPool]
      rfl

/-- A pop from an empty queue finds nothing. -/
theorem Shape.pop_nil (shape : Shape queue threads []) (side : End) :
    ThreadQueue.pop side queue threads = some (none, queue, threads) := by
  rw [ThreadQueue.pop, if_neg (by rw [shape.numThreads]; exact Nat.lt_irrefl 0)]

@[simp]
theorem Queue.numThreads_cut (queue : Queue ι) (threads : Threads ι) (thread : ι) :
    (queue.cut threads thread).numThreads = queue.numThreads := by
  rw [cut]
  split
  · exact numThreads_set ..
  · split
    · exact numThreads_set ..
    · rfl

@[simp]
theorem Queue.isEmpty_cut (queue : Queue ι) (threads : Threads ι) (thread : ι) :
    (queue.cut threads thread).isEmpty = queue.isEmpty := by
  rw [cut]
  split
  · exact isEmpty_set ..
  · split
    · exact isEmpty_set ..
    · rfl

/-- The ends of a queue from which a thread is removed. -/
theorem Shape.cut {front back : List ι} (shape : Shape queue threads (front ++ thread :: back))
    (nodup : (front ++ thread :: back).Nodup) (nonempty : front ++ back ≠ [])
    (next : threads'.next thread = (back ++ front).head?)
    (prev : threads'.prev thread = (back ++ front).getLast?) :
    (queue.cut threads' thread).head = (front ++ back).head? ∧
      (queue.cut threads' thread).tail = (front ++ back).getLast? := by
  obtain ⟨-, nodupBack, apart⟩ := List.nodup_append.mp nodup
  cases front with
  | nil =>
      have atHead : some thread = queue.head := shape.head.symm
      rw [Queue.cut, if_pos atHead]
      refine ⟨next.trans (by rw [List.append_nil]; rfl), ?_⟩
      exact shape.tail.trans (List.getLast?_cons_of_ne_nil nonempty)
  | cons first front =>
      have notHead : some thread ≠ queue.head := fun same => by
        have := Option.some.inj (same.trans shape.head)
        exact apart first List.mem_cons_self thread List.mem_cons_self this.symm
      rw [Queue.cut, if_neg notHead]
      cases back with
      | nil =>
          have atTail : some thread = queue.tail := (shape.tail.trans List.getLast?_concat).symm
          rw [if_pos atTail]
          exact ⟨shape.head, prev.trans (by rw [List.append_nil]; rfl)⟩
      | cons second back =>
          have tail : queue.tail = (first :: front ++ second :: back).getLast? := by
            rw [shape.tail, List.getLast?_append_of_ne_nil _ (List.cons_ne_nil _ _),
              List.getLast?_append_of_ne_nil _ (List.cons_ne_nil _ _), List.getLast?_cons_cons]
          have notTail : some thread ≠ queue.tail := fun same => by
            rw [tail, List.getLast?_append_of_ne_nil _ (List.cons_ne_nil _ _)] at same
            exact (List.nodup_cons.mp nodupBack).1 (List.mem_of_getLast? same.symm)
          rw [if_neg notTail]
          exact ⟨shape.head, tail⟩

/-- **A thread is removed from its place.** -/
theorem Shape.remove {front back : List ι} (shape : Shape queue threads (front ++ thread :: back))
    (nodup : (front ++ thread :: back).Nodup) (inPool : threads.isInPool thread = true) :
    ∃ queue' threads',
      threadQueueRemove queue threads thread = some (.success, queue', threads') ∧
        Shape queue' threads' (front ++ back) ∧
          threads'.isInPool = Function.update threads.isInPool thread false ∧
            Apart threads threads' (front ++ thread :: back) := by
  have count : queue.numThreads = (front ++ back).length + 1 := by
    rw [shape.numThreads]
    simp
    omega
  have some : queue.numThreads ≠ 0 := count ▸ Nat.succ_ne_zero _
  have notOut : threads.isInPool thread ≠ false := by simp [inPool]
  have members : ∀ other, other ∈ front ++ thread :: back ↔ other ∈ thread :: (back ++ front) := by
    simp [or_comm, or_left_comm]
  have same : ∀ threads', Apart threads threads' (thread :: (back ++ front)) →
      Apart threads threads' (front ++ thread :: back) := fun threads' apart other outside =>
    apart other fun member => outside ((members other).mpr member)
  have turned : (thread :: (back ++ front)).Nodup := by
    have := List.nodup_append_comm.mp nodup
    simpa using this
  have absent : thread ∉ back ++ front := (List.nodup_cons.mp turned).1
  rcases eq_or_ne (front ++ back) [] with alone | nonempty
  · obtain ⟨rfl, rfl⟩ := List.append_eq_nil_iff.mp alone
    refine ⟨ThreadQueue.init, threads.clear thread, ?_, Shape.init, rfl, ?_⟩
    · have one : queue.numThreads = 1 := count
      rw [threadQueueRemove, if_neg some, if_neg notOut, if_pos one]
      rfl
    · exact Apart.clear fun _ _ => ⟨rfl, rfl⟩
  · have many : queue.numThreads ≠ 1 := fun one => by
      rw [count, Nat.add_eq_right, List.length_eq_zero_iff] at one
      exact nonempty one
    have nonempty' : back ++ front ≠ [] := by
      simpa [and_comm] using nonempty
    have circle : Circular threads.next threads.prev (thread :: (back ++ front)) := by
      have := Circular.rotate.mp shape.circular
      simpa using this
    obtain ⟨threads', unlinked, circular, inPool', apart, next, prev⟩ :=
      unlink_spec circle turned nonempty'
    have after : Shape (queue.cut threads' thread).shrink threads' (front ++ back) := by
      have less : queue.numThreads - 1 = (front ++ back).length := by
        rw [count, Nat.add_sub_cancel]
      have empty : queue.isEmpty = (front ++ back).isEmpty := by
        rw [shape.isEmpty, List.isEmpty_eq_false_iff.mpr nonempty,
          List.isEmpty_eq_false_iff.mpr (by simp)]
      obtain ⟨head, tail⟩ := shape.cut nodup nonempty next prev
      refine ⟨Circular.rotate.mp circular, head, tail, ?_, ?_⟩
      · rw [← less, ← Queue.numThreads_cut queue threads' thread]
        rfl
      · rw [← empty, ← Queue.isEmpty_cut queue threads' thread]
        rfl
    refine ⟨_, threads'.clear thread, ?_, after.clear fun member => absent ?_, ?_, ?_⟩
    · rw [threadQueueRemove, if_neg some, if_neg notOut, if_neg many, unlinked]
      rfl
    · simpa [or_comm] using member
    · rw [← inPool']
      rfl
    · exact same _ apart.clear

end Queue

end ArgobotsReduction.Scheduling.ThreadQueue
