import Mathlib.Data.Set.Disjoint
import Mathlib.Order.CompletePartialOrder
import ArgobotsReduction.Parallel.Rounds

/-!
# Footprints

A memory gives a value to every location.  The footprint of an action is the
set of locations it reads and the set of locations it writes: outside the
second the action changes nothing, and inside it the new values depend only on
the first.

Two actions conflict when one of them writes a location that the other reads or
writes.  Actions without a conflict commute (`Footprint.commute`).  When no
party of a round conflicts with another, the round leaves in the locations of a
party what that party alone would have left there (`Footprint.round_own`), and
every run is canonical (`Footprint.exchange`).

The conditions are asked for only in the memories that satisfy a predicate.  An
action whose footprint depends on data that nobody writes at the time has a
footprint among the memories with that data.
-/

set_option autoImplicit false

namespace Parallel

universe u v w

variable {A : Type u} {Loc : Type v} {Val : Loc → Type w}

/-- What the actions read and write, among the memories that satisfy `good`. -/
structure Footprint (exec : A → (∀ l, Val l) → (∀ l, Val l)) (good : (∀ l, Val l) → Prop) where
  reads : A → Set Loc
  writes : A → Set Loc
  frame : ∀ a m, good m → ∀ l, l ∉ writes a → exec a m l = m l
  determined : ∀ a m n, good m → good n → (∀ l ∈ reads a, m l = n l) →
    ∀ l ∈ writes a, exec a m l = exec a n l

namespace Footprint

variable {exec : A → (∀ l, Val l) → (∀ l, Val l)} {good : (∀ l, Val l) → Prop}

/-- Neither action writes a location the other reads or writes. -/
structure Apart (footprint : Footprint exec good) (a b : A) : Prop where
  left : Disjoint (footprint.writes a) (footprint.reads b ∪ footprint.writes b)
  right : Disjoint (footprint.writes b) (footprint.reads a ∪ footprint.writes a)

theorem Apart.symm {footprint : Footprint exec good} {a b : A} (apart : footprint.Apart a b) :
    footprint.Apart b a :=
  ⟨apart.right, apart.left⟩

/-- Actions that write one location each are apart when neither target is a location of the
other. -/
theorem Apart.of_targets {footprint : Footprint exec good} {a b : A} {k l : Loc}
    (writesA : footprint.writes a = {k}) (writesB : footprint.writes b = {l}) (different : k ≠ l)
    (left : k ∉ footprint.reads b) (right : l ∉ footprint.reads a) : footprint.Apart a b where
  left := by
    rw [writesA, writesB, Set.disjoint_singleton_left]
    rintro (read | written)
    · exact left read
    · exact different written
  right := by
    rw [writesA, writesB, Set.disjoint_singleton_left]
    rintro (read | written)
    · exact right read
    · exact different written.symm

/-- An action writes a location that its party owns, and reads what its party owns and what nobody
writes. -/
structure Confined (owned : Loc → Prop) (shared : Set Loc) (target : Loc) (reads : Set Loc) :
    Prop where
  writes : owned target
  unshared : target ∉ shared
  reads : ∀ l ∈ reads, owned l ∨ l ∈ shared

/-- What one party's action writes is not read by a confined action of another. -/
theorem Confined.notMem_reads {mine theirs : Loc → Prop} {shared reads other : Set Loc}
    {k l : Loc} (disjoint : ∀ l, mine l → ¬ theirs l) (first : Confined mine shared k reads)
    (second : Confined theirs shared l other) : k ∉ other := by
  intro read
  rcases second.reads k read with belongs | common
  · exact disjoint k first.writes belongs
  · exact first.unshared common

/-- Confined actions of two parties are apart. -/
theorem Confined.apart {footprint : Footprint exec good} {a b : A} {mine theirs : Loc → Prop}
    {shared : Set Loc} {k l : Loc} (disjoint : ∀ l, mine l → ¬ theirs l)
    (writesA : footprint.writes a = {k}) (writesB : footprint.writes b = {l})
    (first : Confined mine shared k (footprint.reads a))
    (second : Confined theirs shared l (footprint.reads b)) : footprint.Apart a b := by
  have swapped : ∀ l, theirs l → ¬ mine l := fun l belongs own => disjoint l own belongs
  refine .of_targets writesA writesB ?_ (first.notMem_reads disjoint second)
    (second.notMem_reads swapped first)
  rintro rfl
  exact disjoint k first.writes second.writes

/-- An action that does not write what another one reads leaves its result as it
was. -/
theorem exec_congr_of_disjoint (footprint : Footprint exec good) {a b : A}
    {m : ∀ l, Val l} (here : good m) (after : good (exec b m))
    (unread : Disjoint (footprint.writes b) (footprint.reads a)) :
    ∀ l ∈ footprint.writes a, exec a (exec b m) l = exec a m l :=
  footprint.determined a _ _ after here fun l read =>
    footprint.frame b m here l fun written => Set.disjoint_left.mp unread written read

/-- **Actions without a conflict commute.** -/
theorem commute (footprint : Footprint exec good) {a b : A} (apart : footprint.Apart a b)
    {m : ∀ l, Val l} (here : good m) (afterA : good (exec a m)) (afterB : good (exec b m)) :
    exec a (exec b m) = exec b (exec a m) := by
  have unreadA := (Set.disjoint_union_right.mp apart.left).1
  have unreadB := (Set.disjoint_union_right.mp apart.right).1
  have unwritten := (Set.disjoint_union_right.mp apart.left).2
  funext l
  by_cases writtenA : l ∈ footprint.writes a
  · have notB : l ∉ footprint.writes b := Set.disjoint_left.mp unwritten writtenA
    rw [footprint.frame b _ afterA l notB,
      footprint.exec_congr_of_disjoint here afterB unreadB l writtenA]
  · rw [footprint.frame a _ afterB l writtenA]
    by_cases writtenB : l ∈ footprint.writes b
    · rw [footprint.exec_congr_of_disjoint here afterA unreadA l writtenB]
    · rw [footprint.frame b _ here l writtenB, footprint.frame b _ afterA l writtenB,
        footprint.frame a _ here l writtenA]

/-- Actions without a conflict commute in every memory, when every memory is good. -/
theorem commute_always (footprint : Footprint exec fun _ => True) {a b : A}
    (apart : footprint.Apart a b) (m : ∀ l, Val l) :
    exec a (exec b m) = exec b (exec a m) :=
  footprint.commute apart trivial trivial trivial

/-- A list of actions changes nothing outside what they write. -/
theorem frame_all (footprint : Footprint exec good) {items : List A}
    (keeps : ∀ a ∈ items, ∀ m, good m → good (exec a m)) {m : ∀ l, Val l} (holds : good m)
    {l : Loc} (unwritten : ∀ a ∈ items, l ∉ footprint.writes a) :
    execAll exec items m l = m l := by
  induction items generalizing m with
  | nil => rfl
  | cons a items ih =>
      rw [execAll_cons, ih (fun b member => keeps b (List.mem_cons_of_mem _ member))
        (keeps a List.mem_cons_self m holds)
        (fun b member => unwritten b (List.mem_cons_of_mem _ member)),
        footprint.frame a m holds l (unwritten a List.mem_cons_self)]

/-- Memories that agree on a set containing what the actions read agree on it
after the actions. -/
theorem agree_all (footprint : Footprint exec good) {items : List A} (view : Set Loc)
    (keeps : ∀ a ∈ items, ∀ m, good m → good (exec a m))
    (inView : ∀ a ∈ items, footprint.reads a ⊆ view) {m n : ∀ l, Val l} (holdsM : good m)
    (holdsN : good n) (agree : ∀ l ∈ view, m l = n l) :
    ∀ l ∈ view, execAll exec items m l = execAll exec items n l := by
  induction items generalizing m n with
  | nil => exact agree
  | cons a items ih =>
      refine ih (fun b member => keeps b (List.mem_cons_of_mem _ member))
        (fun b member => inView b (List.mem_cons_of_mem _ member))
        (keeps a List.mem_cons_self m holdsM) (keeps a List.mem_cons_self n holdsN) ?_
      intro l seen
      change exec a m l = exec a n l
      by_cases written : l ∈ footprint.writes a
      · exact footprint.determined a m n holdsM holdsN
          (fun k read => agree k (inView a List.mem_cons_self read)) l written
      · rw [footprint.frame a m holdsM l written, footprint.frame a n holdsN l written,
          agree l seen]

section Rounds

variable {ι : Type*}

/-- In a round without conflicts, a location that no other party writes holds at
the end what its own party leaves there when it runs alone. -/
theorem round_own (footprint : Footprint exec good) {order : List ι} (nodup : order.Nodup)
    {todo : ι → List A} (keeps : ∀ t, ∀ a ∈ todo t, ∀ m, good m → good (exec a m)) {t : ι}
    (member : t ∈ order)
    (apart : ∀ u ∈ order, u ≠ t → ∀ b ∈ todo u, ∀ a ∈ todo t,
      Disjoint (footprint.writes b) (footprint.reads a))
    {m : ∀ l, Val l} (holds : good m) {l : Loc}
    (own : ∀ u ∈ order, u ≠ t → ∀ b ∈ todo u, l ∉ footprint.writes b) :
    execAll exec (order.flatMap todo) m l = execAll exec (todo t) m l := by
  obtain ⟨before, after, rfl⟩ := List.append_of_mem member
  rw [List.nodup_middle] at nodup
  have others : ∀ u ∈ before ++ after, u ≠ t := fun u inside same =>
    (List.nodup_cons.mp nodup).1 (same ▸ inside)
  have keepsPart : ∀ part : List ι, ∀ a ∈ part.flatMap todo, ∀ m, good m → good (exec a m) := by
    intro part a inside
    obtain ⟨u, -, mine⟩ := List.mem_flatMap.mp inside
    exact keeps u a mine
  have holdsBefore : good (execAll exec (before.flatMap todo) m) :=
    execAll_keeps (keepsPart before) holds
  rw [List.flatMap_append, List.flatMap_cons, execAll_append, execAll_append,
    footprint.frame_all (keepsPart after) (execAll_keeps (keeps t) holdsBefore)]
  · -- what the party reads or writes is untouched by the parties before it
    refine footprint.agree_all {k | ∀ u ∈ before, ∀ b ∈ todo u, k ∉ footprint.writes b}
      (keeps t) ?_ holdsBefore holds ?_ l ?_
    · intro a mine k read u inside b theirs written
      exact Set.disjoint_left.mp (apart u (List.mem_append_left _ inside)
        (others u (List.mem_append_left _ inside)) b theirs a mine) written read
    · intro k seen
      refine footprint.frame_all (keepsPart before) holds fun b inside => ?_
      obtain ⟨u, member, theirs⟩ := List.mem_flatMap.mp inside
      exact seen u member b theirs
    · intro u inside b theirs
      exact own u (List.mem_append_left _ inside) (others u (List.mem_append_left _ inside)) b
        theirs
  · intro b inside
    obtain ⟨u, member, theirs⟩ := List.mem_flatMap.mp inside
    exact own u (List.mem_append_right _ (List.mem_cons_of_mem _ member))
      (others u (List.mem_append_right _ member)) b theirs

variable [DecidableEq ι]

/-- **Rounds without conflicts make every run canonical**, under every policy. -/
theorem exchange {goodAt : ℕ → (∀ l, Val l) → Prop}
    (footprint : ∀ round, Footprint exec (goodAt round)) {may : Policy ι A (∀ l, Val l)}
    {order : List ι} {code : ι → Code A} {memory : ∀ l, Val l} (complete : ∀ t, t ∈ order)
    (nodup : order.Nodup) (enter : ∀ round, goodAt round (canonical exec order code memory round))
    (keep : ∀ t round, ∀ a ∈ (code t).actions round, ∀ m, goodAt round m →
      goodAt round (exec a m))
    (apart : ∀ t u round, t ≠ u → ∀ a ∈ (code t).actions round, ∀ b ∈ (code u).actions round,
      (footprint round).Apart a b) :
    Exchange exec may order code memory goodAt :=
  .of_commute complete nodup enter keep fun t u round different a mine b theirs m holds =>
    (footprint round).commute (apart t u round different a mine b theirs) holds
      (keep t round a mine m holds) (keep u round b theirs m holds)

end Rounds

end Footprint

end Parallel
