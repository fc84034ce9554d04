import Mathlib.Algebra.Order.Group.Nat
import Mathlib.Data.List.Range
import Mathlib.Logic.Function.Basic

/-!
# A growing ring buffer

A first-in first-out queue in an array of fixed capacity, with the positions of
its first element and of the slot behind its last one.  Positions wrap around.
One slot stays free, so that a full buffer is not mistaken for an empty one; a
push that would fill it first moves the contents to an array of twice the
capacity.

`RingBuffer.toList` is the contents in order.  A push appends to it
(`toList_push`) and a pop removes its first element (`toList_pop`).
-/

set_option autoImplicit false

namespace Containers

universe u

/-- An array with the positions of a queue in it. -/
structure RingBuffer (α : Type u) where
  buffer : ℕ → α
  head : ℕ
  tail : ℕ
  capacity : ℕ
  head_lt : head < capacity
  tail_lt : tail < capacity

namespace RingBuffer

variable {α : Type u}

/-- The number of elements from a position up to the tail. -/
def remaining (b : RingBuffer α) (index : ℕ) : ℕ :=
  if index ≤ b.tail then b.tail - index else b.tail + b.capacity - index

def size (b : RingBuffer α) : ℕ := b.remaining b.head

/-- The contents, from head to tail. -/
def toList (b : RingBuffer α) : List α :=
  (List.range b.size).map fun k => b.buffer ((b.head + k) % b.capacity)

/-- The position after a position. -/
def next (b : RingBuffer α) (index : ℕ) : ℕ := (index + 1) % b.capacity

theorem next_eq (b : RingBuffer α) {index : ℕ} (within : index < b.capacity) :
    b.next index = if index + 1 < b.capacity then index + 1 else 0 := by
  rw [next]
  split
  · exact Nat.mod_eq_of_lt ‹_›
  · have last : index + 1 = b.capacity := by omega
    rw [last, Nat.mod_self]

theorem next_lt (b : RingBuffer α) (index : ℕ) : b.next index < b.capacity :=
  Nat.mod_lt _ (Nat.zero_lt_of_lt b.head_lt)

/-- A step towards the tail. -/
theorem remaining_next (b : RingBuffer α) {index : ℕ} (within : index < b.capacity)
    (different : index ≠ b.tail) : b.remaining (b.next index) + 1 = b.remaining index := by
  have tail := b.tail_lt
  rw [b.next_eq within, remaining, remaining]
  split_ifs <;> omega

theorem remaining_lt (b : RingBuffer α) {index : ℕ} (within : index < b.capacity) :
    b.remaining index < b.capacity := by
  have tail := b.tail_lt
  rw [remaining]
  split_ifs <;> omega

theorem size_lt (b : RingBuffer α) : b.size < b.capacity := b.remaining_lt b.head_lt

/-- An element is not in the slot behind the last one. -/
theorem wrap_ne_tail (b : RingBuffer α) {k : ℕ} (within : k < b.size) :
    (b.head + k) % b.capacity ≠ b.tail := by
  have head := b.head_lt
  have tail := b.tail_lt
  rw [size, remaining] at within
  split_ifs at within with ordered
  · rw [Nat.mod_eq_of_lt (by omega)]
    omega
  · by_cases inside : b.head + k < b.capacity
    · rw [Nat.mod_eq_of_lt inside]
      omega
    · rw [Nat.mod_eq_sub_mod (by omega), Nat.mod_eq_of_lt (by omega)]
      omega

theorem wrap_size (b : RingBuffer α) : (b.head + b.size) % b.capacity = b.tail := by
  have head := b.head_lt
  have tail := b.tail_lt
  rw [size, remaining]
  split_ifs with ordered
  · rw [Nat.add_sub_cancel' ordered, Nat.mod_eq_of_lt tail]
  · rw [Nat.add_sub_cancel' (by omega), Nat.add_mod_right, Nat.mod_eq_of_lt tail]

/-! ## Copying the contents out -/

/-- The loop that copies the elements from a position up to the tail to a target,
and counts them. -/
def copyOut (b : RingBuffer α) (index : ℕ) (within : index < b.capacity) (target : ℕ → α)
    (count : ℕ) : (ℕ → α) × ℕ :=
  if different : index = b.tail then (target, count)
  else
    have closer : b.remaining (b.next index) < b.remaining index :=
      Nat.lt_of_succ_le (b.remaining_next within different).le
    b.copyOut (b.next index) (b.next_lt index)
      (Function.update target count (b.buffer index)) (count + 1)
termination_by b.remaining index

theorem copyOut_count (b : RingBuffer α) (index : ℕ) (within : index < b.capacity)
    (target : ℕ → α) (count : ℕ) :
    (b.copyOut index within target count).2 = count + b.remaining index := by
  fun_induction copyOut b index within target count with
  | case1 => simp [remaining]
  | case2 index within target count different closer ih =>
      rw [ih, ← b.remaining_next within different]
      omega

/-- The loop leaves the slots before its count as they were. -/
theorem copyOut_before (b : RingBuffer α) (index : ℕ) (within : index < b.capacity)
    (target : ℕ → α) (count : ℕ) {j : ℕ} (before : j < count) :
    (b.copyOut index within target count).1 j = target j := by
  fun_induction copyOut b index within target count with
  | case1 => rfl
  | case2 index within target count different closer ih =>
      rw [ih (by omega), Function.update_of_ne (by omega)]

theorem copyOut_copied (b : RingBuffer α) (index : ℕ) (within : index < b.capacity)
    (target : ℕ → α) (count : ℕ) {k : ℕ} (inside : k < b.remaining index) :
    (b.copyOut index within target count).1 (count + k) =
      b.buffer ((index + k) % b.capacity) := by
  fun_induction copyOut b index within target count generalizing k with
  | case1 => simp [remaining] at inside
  | case2 index within target count different closer ih =>
      have step := b.remaining_next within different
      cases k with
      | zero =>
          have kept := b.copyOut_before (b.next index) (b.next_lt index)
            (Function.update target count (b.buffer index)) (count + 1) (Nat.lt_succ_self count)
          rw [Function.update_self] at kept
          simpa only [Nat.add_zero, Nat.mod_eq_of_lt within] using kept
      | succ k =>
          have wrapped : (b.next index + k) % b.capacity = (index + (k + 1)) % b.capacity := by
            rw [next, Nat.mod_add_mod, Nat.add_assoc, Nat.add_comm 1 k]
          have shifted : count + (k + 1) = count + 1 + k := by omega
          rw [shifted, ih (by omega), wrapped]

/-- The contents in an array of twice the capacity. -/
def grow (b : RingBuffer α) (fresh : ℕ → α) : RingBuffer α where
  buffer := (b.copyOut b.head b.head_lt fresh 0).1
  head := 0
  tail := (b.copyOut b.head b.head_lt fresh 0).2
  capacity := b.capacity * 2
  head_lt := by
    have head := b.head_lt
    omega
  tail_lt := by
    have bound := b.remaining_lt b.head_lt
    rw [copyOut_count]
    omega

theorem tail_grow (b : RingBuffer α) (fresh : ℕ → α) : (b.grow fresh).tail = b.size :=
  (b.copyOut_count b.head b.head_lt fresh 0).trans (Nat.zero_add _)

theorem size_grow (b : RingBuffer α) (fresh : ℕ → α) : (b.grow fresh).size = b.size := by
  have moved : (b.grow fresh).size = if 0 ≤ (b.grow fresh).tail then (b.grow fresh).tail - 0
      else (b.grow fresh).tail + b.capacity * 2 - 0 := rfl
  rw [moved, tail_grow, if_pos (Nat.zero_le _), Nat.sub_zero]

theorem toList_grow (b : RingBuffer α) (fresh : ℕ → α) : (b.grow fresh).toList = b.toList := by
  rw [toList, toList, size_grow]
  refine List.map_congr_left fun k member => ?_
  have inside : k < b.size := List.mem_range.mp member
  have bound := b.size_lt
  have copied := b.copyOut_copied b.head b.head_lt fresh 0 inside
  have unwrapped : (0 + k) % (b.capacity * 2) = 0 + k := Nat.mod_eq_of_lt (by omega)
  exact (congrArg (b.grow fresh).buffer unwrapped).trans copied

/-! ## Push and pop -/

/-- Write behind the last element.  There is room for it. -/
def append (b : RingBuffer α) (element : α) : RingBuffer α :=
  { b with
    buffer := Function.update b.buffer b.tail element
    tail := b.next b.tail
    tail_lt := b.next_lt b.tail }

/-- The buffer has no second free slot. -/
def Full (b : RingBuffer α) : Prop := b.next b.tail = b.head

instance (b : RingBuffer α) : Decidable b.Full := inferInstanceAs (Decidable (_ = _))

theorem size_append (b : RingBuffer α) (room : ¬ b.Full) (element : α) :
    (b.append element).size = b.size + 1 := by
  have head := b.head_lt
  have tail := b.tail_lt
  have moved : (b.append element).size = if b.head ≤ b.next b.tail then b.next b.tail - b.head
      else b.next b.tail + b.capacity - b.head := rfl
  rw [Full, b.next_eq tail] at room
  rw [moved, b.next_eq tail, size, remaining]
  split_ifs at room ⊢ <;> omega

theorem toList_append (b : RingBuffer α) (room : ¬ b.Full) (element : α) :
    (b.append element).toList = b.toList ++ [element] := by
  rw [toList, size_append b room, List.range_succ, List.map_append, toList]
  congr 1
  · refine List.map_congr_left fun k member => ?_
    exact Function.update_of_ne (b.wrap_ne_tail (List.mem_range.mp member)) _ _
  · rw [List.map_singleton]
    refine congrArg (fun x => [x]) ?_
    change Function.update b.buffer b.tail element ((b.head + b.size) % b.capacity) = element
    rw [wrap_size, Function.update_self]

theorem not_full_grow (b : RingBuffer α) (fresh : ℕ → α) : ¬ (b.grow fresh).Full := by
  have bound := b.size_lt
  have room : (b.grow fresh).tail + 1 < b.capacity * 2 := by
    rw [tail_grow]
    omega
  have next : (b.grow fresh).next (b.grow fresh).tail = (b.grow fresh).tail + 1 :=
    Nat.mod_eq_of_lt room
  rw [Full, next]
  exact Nat.succ_ne_zero _

/-- Append an element, growing first when the buffer is full. -/
def push (b : RingBuffer α) (fresh : ℕ → α) (element : α) : RingBuffer α :=
  if b.Full then (b.grow fresh).append element else b.append element

/-- **A push appends.** -/
theorem toList_push (b : RingBuffer α) (fresh : ℕ → α) (element : α) :
    (b.push fresh element).toList = b.toList ++ [element] := by
  rw [push]
  split
  · rw [toList_append _ (b.not_full_grow fresh), toList_grow]
  · rw [toList_append _ ‹_›]

/-- Move the head past the first element. -/
def dropFirst (b : RingBuffer α) : RingBuffer α :=
  { b with head := b.next b.head, head_lt := b.next_lt b.head }

/-- The first element and the buffer without it, or nothing when it is empty. -/
def pop (b : RingBuffer α) : Option (α × RingBuffer α) :=
  if b.head ≠ b.tail then some (b.buffer b.head, b.dropFirst) else none

theorem toList_eq_nil (b : RingBuffer α) (empty : b.head = b.tail) : b.toList = [] := by
  simp [toList, size, remaining, empty]

theorem toList_eq_cons (b : RingBuffer α) (nonempty : b.head ≠ b.tail) :
    b.toList = b.buffer b.head :: b.dropFirst.toList := by
  have size : b.size = b.dropFirst.size + 1 := (b.remaining_next b.head_lt nonempty).symm
  rw [toList, size, List.range_succ_eq_map, List.map_cons, Nat.add_zero,
    Nat.mod_eq_of_lt b.head_lt, List.map_map, toList]
  refine congrArg (List.cons _) (List.map_congr_left fun k _ => ?_)
  change b.buffer ((b.head + (k + 1)) % b.capacity) =
    b.buffer (((b.head + 1) % b.capacity + k) % b.capacity)
  rw [Nat.mod_add_mod, Nat.add_assoc, Nat.add_comm 1 k]

/-- **A pop takes the first element off**, and nothing comes only from an empty
buffer. -/
theorem toList_pop (b : RingBuffer α) :
    b.toList = match b.pop with
      | none => []
      | some (element, rest) => element :: rest.toList := by
  rw [pop]
  rcases eq_or_ne b.head b.tail with empty | nonempty
  · rw [if_neg (not_not.mpr empty)]
    exact b.toList_eq_nil empty
  · rw [if_pos nonempty]
    exact b.toList_eq_cons nonempty

end RingBuffer

end Containers
