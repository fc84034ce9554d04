import Mathlib.Order.Bounds.Basic
import Mathlib.Algebra.Order.Ring.Int
import ArgobotsReduction.Containers.TwoWay
import ArgobotsReduction.Parallel.Machine

/-!
# The list of execution streams

All execution streams are in one list, which is sorted by their ranks.  A stream gets
the least unused rank or the one that its creator has chosen, a secondary stream can
change its rank, and a stream that is freed is taken out of the list.  All of this
happens under the lock of the list, so that every operation is one event.

A loop of the code follows the links until it finds its place.  Here it stops after as
many steps as there are streams and one more, and an operation in which a loop does not
end by then, or an assertion fails, has no result.
-/

set_option autoImplicit false

namespace ArgobotsReduction.Streams

open Containers Parallel

universe u

/-! ## The code -/

inductive XstreamType where
  | primary
  | secondary
  deriving DecidableEq

/-- The return values. -/
inductive Code where
  | success
  | invXstream
  | invXstreamRank
  | resource
  deriving DecidableEq

/-- The fields of `ABTI_global` and `ABTI_xstream` that make up the list.  `allocated` has the
streams that have been allocated and not freed. -/
structure State (ι : Type u) where
  xstreamHead : Option ι
  numXstreams : ℤ
  maxXstreams : ℤ
  prev : ι → Option ι
  next : ι → Option ι
  rank : ι → ℤ
  type : ι → XstreamType
  allocated : ι → Bool

namespace State

variable {ι : Type u}

/-- The bound of the loops. -/
def bound (s : State ι) : ℕ := s.numXstreams.toNat + 1

/-- The loop of `xstream_add_xstream_list`. -/
def findPlace (s : State ι) (rank : ℤ) :
    ℕ → Option ι → Option ι → Option (Option ι × Option ι)
  | 0, _, _ => none
  | _ + 1, pPrevXstream, none => some (pPrevXstream, none)
  | steps + 1, pPrevXstream, some p =>
      if s.rank p = rank then none
      else if rank < s.rank p then some (pPrevXstream, some p)
      else findPlace s rank steps (some p) (s.next p)

/-- The loop of `xstream_set_new_rank` that finds an unused rank. -/
def findUnused (s : State ι) : ℕ → ℤ → Option ι → Option ℤ
  | 0, _, _ => none
  | _ + 1, rank, none => some rank
  | steps + 1, rank, some p =>
      if s.rank p = rank then findUnused s steps (rank + 1) (s.next p) else some rank

/-- The loop of `xstream_set_new_rank` and `xstream_change_rank` that checks a rank. -/
def isAvailable (s : State ι) (rank : ℤ) : ℕ → Option ι → Option Bool
  | 0, _ => none
  | _ + 1, none => some true
  | steps + 1, some p =>
      if s.rank p = rank then some false
      else if rank < s.rank p then some true
      else isAvailable s rank steps (s.next p)

/-- `xstream_update_max_xstreams` -/
def updateMaxXstreams (s : State ι) (newrank : ℤ) : State ι :=
  if s.maxXstreams ≤ newrank then { s with maxXstreams := newrank + 1 } else s

variable [DecidableEq ι]

def setHead (s : State ι) (target : Option ι) : State ι :=
  { s with xstreamHead := target }

def setNext (s : State ι) (p : ι) (target : Option ι) : State ι :=
  { s with next := Function.update s.next p target }

def setPrev (s : State ι) (p : ι) (target : Option ι) : State ι :=
  { s with prev := Function.update s.prev p target }

def setRank (s : State ι) (p : ι) (rank : ℤ) : State ι :=
  { s with rank := Function.update s.rank p rank }

def setType (s : State ι) (p : ι) (type : XstreamType) : State ι :=
  { s with type := Function.update s.type p type }

def setAllocated (s : State ι) (p : ι) (allocated : Bool) : State ι :=
  { s with allocated := Function.update s.allocated p allocated }

/-- `xstream_add_xstream_list` -/
def addXstreamList (s : State ι) (p : ι) : Option (State ι) :=
  match s.findPlace (s.rank p) s.bound s.xstreamHead s.xstreamHead with
  | none => none
  | some (some q, none) => some (((s.setNext q (some p)).setPrev p (some q)).setNext p none)
  | some (none, none) =>
      if s.xstreamHead = none then
        some (((s.setPrev p none).setNext p none).setHead (some p))
      else none
  | some (_, some x) =>
      match s.prev x with
      | some q =>
          some ((((s.setNext q (some p)).setPrev p (some q)).setPrev x (some p)).setNext p (some x))
      | none =>
          if s.xstreamHead = some x then
            some (((s.setHead (some p)).setPrev x (some p)).setNext p (some x))
          else none

/-- `xstream_remove_xstream_list` -/
def removeXstreamList (s : State ι) (p : ι) : Option (State ι) :=
  (match s.prev p with
    | none => if s.xstreamHead = some p then some (s.setHead (s.next p)) else none
    | some q => some (s.setNext q (s.next p))).map fun (s : State ι) =>
      match s.next p with
      | some q => s.setPrev q (s.prev p)
      | none => s

/-- The end of `xstream_set_new_rank`, with the rank that has been found. -/
def takeRank (s : State ι) (p : ι) (rank : ℤ) : Option (State ι × Bool) :=
  ((s.setRank p rank).addXstreamList p).map fun s =>
    ({ s.updateMaxXstreams rank with numXstreams := s.numXstreams + 1 }, true)

/-- `xstream_set_new_rank` -/
def setNewRank (s : State ι) (p : ι) (rank : ℤ) : Option (State ι × Bool) :=
  if rank = -1 then
    (s.findUnused s.bound 0 s.xstreamHead).bind fun unused => s.takeRank p unused
  else
    (s.isAvailable rank s.bound s.xstreamHead).bind fun available =>
      if available then s.takeRank p rank else some (s, false)

/-- `xstream_change_rank` -/
def changeRank (s : State ι) (p : ι) (rank : ℤ) : Option (State ι × Bool) :=
  if s.rank p = rank then some (s, true)
  else
    (s.isAvailable rank s.bound s.xstreamHead).bind fun available =>
      if available then
        (s.removeXstreamList p).bind fun s =>
          ((s.setRank p rank).addXstreamList p).map fun s => (s.updateMaxXstreams rank, true)
      else some (s, false)

/-- `xstream_return_rank` -/
def returnRank (s : State ι) (p : ι) : Option (State ι) :=
  (s.removeXstreamList p).map fun s => { s with numXstreams := s.numXstreams - 1 }

/-- `ABTU_malloc` of a stream, whose links are set to null. -/
def malloc (s : State ι) (p : ι) : State ι :=
  ((s.setAllocated p true).setPrev p none).setNext p none

/-- `ABTU_free` of a stream. -/
def free (s : State ι) (p : ι) : State ι :=
  s.setAllocated p false

/-- `xstream_create`.  `initialized` tells whether all steps after the first one succeed. -/
def xstreamCreate (s : State ι) (p : ι) (type : XstreamType) (rank : ℤ) (initialized : Bool) :
    Option (State ι × Code) :=
  ((s.malloc p).setNewRank p rank).bind fun (s, isSet) =>
    if isSet then
      if initialized then some (s.setType p type, .success)
      else ((s.setType p type).returnRank p).map fun s => (s.free p, .resource)
    else some (s.free p, .invXstreamRank)

end State

/-- The operations on the list. -/
inductive Operation (ι : Type u) where
  | create (p : ι) (initialized : Bool)
  | createWithRank (p : ι) (rank : ℤ) (initialized : Bool)
  | setRank (p : ι) (rank : ℤ)
  | free (p : ι)
  deriving DecidableEq

variable {ι : Type u}

namespace Operation

/-- The stream of an operation. -/
def xstream : Operation ι → ι
  | create p _ | createWithRank p _ _ | setRank p _ | free p => p

/-- The rank that the caller has chosen. -/
def rank : Operation ι → Option ℤ
  | create .. | free _ => none
  | createWithRank _ rank _ | setRank _ rank => some rank

/-- The stream is in the list after the operation. -/
def listed : Operation ι → Bool
  | free _ => false
  | _ => true

/-- How many streams the operation adds. -/
def added : Operation ι → ℤ
  | create .. | createWithRank .. => 1
  | setRank .. => 0
  | free _ => -1

/-- A new stream is not allocated yet, and the other operations are on streams that are. -/
def Valid (s : State ι) : Operation ι → Prop
  | create p _ | createWithRank p _ _ => s.allocated p = false
  | setRank p _ | free p => s.allocated p = true

instance (s : State ι) : (operation : Operation ι) → Decidable (Valid s operation)
  | create .. | createWithRank .. | setRank .. | free .. => inferInstanceAs (Decidable (_ = _))

variable [DecidableEq ι]

/-- `ABT_xstream_create`, `ABT_xstream_create_with_rank`, `ABT_xstream_set_rank` and
`ABT_xstream_free` -/
def perform (s : State ι) : Operation ι → Option (State ι × Code)
  | create p initialized => s.xstreamCreate p .secondary (-1) initialized
  | createWithRank p rank initialized =>
      if 0 ≤ rank then s.xstreamCreate p .secondary rank initialized
      else some (s, .invXstreamRank)
  | setRank p rank =>
      if s.type p = .primary then some (s, .invXstream)
      else if 0 ≤ rank then
        (s.changeRank p rank).map fun (s, isChanged) =>
          (s, if isChanged then .success else .invXstreamRank)
      else some (s, .invXstreamRank)
  | free p =>
      if s.type p = .primary then some (s, .invXstream)
      else (s.returnRank p).map fun s => (s.free p, .success)

end Operation

/-- The list after initialization, with the primary stream. -/
def Begins [DecidableEq ι] (s : State ι) : Prop :=
  ∃ (empty : State ι) (p : ι), empty.xstreamHead = none ∧ empty.numXstreams = 0 ∧
    (∀ q, empty.allocated q = false) ∧
      empty.xstreamCreate p .primary (-1) true = some (s, .success)

/-- The lists with their operations. -/
def streamLists (ι : Type u) [DecidableEq ι] : Machine (State ι) (Operation ι) where
  init := Begins
  step s operation := (operation.perform s).map Prod.fst

/-! ## The list -/

/-- The list has these streams, sorted by their ranks. -/
structure State.Lists (s : State ι) (nodes : List ι) : Prop where
  head : s.xstreamHead = nodes.head?
  linked : TwoWay s.next s.prev nodes
  sorted : nodes.Pairwise fun p q => s.rank p < s.rank q

namespace State.Lists

variable {s s' : State ι} {nodes front back : List ι} {p q : ι} {rank : ℤ}

theorem nodup (lists : s.Lists nodes) : nodes.Nodup :=
  lists.sorted.imp fun less same => less.ne (congrArg s.rank same)

/-- The ranks are unique. -/
theorem rank_ne (lists : s.Lists nodes) (first : p ∈ nodes) (second : q ∈ nodes)
    (other : p ≠ q) : s.rank p ≠ s.rank q := by
  have distinct : (nodes.map s.rank).Nodup :=
    List.pairwise_map.mpr (lists.sorted.imp fun less => less.ne)
  exact fun same => other (List.inj_on_of_nodup_map distinct first second same)

/-- The list is the same when its links and ranks are. -/
theorem congr (lists : s.Lists nodes) (head : s'.xstreamHead = s.xstreamHead)
    (next : ∀ q ∈ nodes, s'.next q = s.next q) (prev : ∀ q ∈ nodes, s'.prev q = s.prev q)
    (rank : ∀ q ∈ nodes, s'.rank q = s.rank q) : s'.Lists nodes where
  head := head.trans lists.head
  linked := lists.linked.congr next prev
  sorted := lists.sorted.imp_of_mem fun first second less => by
    rwa [rank _ first, rank _ second]

/-- The loop that finds the place of a rank. -/
theorem findPlace (lists : s.Lists (front ++ back)) {steps : ℕ} {pPrev : Option ι}
    (enough : back.length < steps) (last : back = [] → pPrev = front.getLast?)
    (below : ∀ q ∈ front, s.rank q < rank) (unused : ∀ q ∈ back, s.rank q ≠ rank) :
    ∃ front' back' pPrev', front ++ back = front' ++ back' ∧
      s.findPlace rank steps pPrev back.head? = some (pPrev', back'.head?) ∧
      (back' = [] → pPrev' = front'.getLast?) ∧
      (∀ q ∈ front', s.rank q < rank) ∧ ∀ q ∈ back', rank < s.rank q := by
  induction back generalizing front steps pPrev with
  | nil =>
      obtain ⟨steps, rfl⟩ := Nat.exists_eq_add_one_of_ne_zero enough.ne'
      exact ⟨front, [], pPrev, rfl, rfl, fun _ => last rfl, below, by simp⟩
  | cons p rest ih =>
      obtain ⟨steps, rfl⟩ := Nat.exists_eq_add_one_of_ne_zero (Nat.ne_zero_of_lt enough)
      have other := unused p List.mem_cons_self
      rw [List.head?_cons, State.findPlace, if_neg other]
      split
      next above =>
        refine ⟨front, p :: rest, pPrev, rfl, rfl, nofun, below, fun q member => ?_⟩
        rcases List.mem_cons.mp member with rfl | later
        · exact above
        · have sorted := (List.pairwise_append.mp lists.sorted).2.1
          exact above.trans (List.rel_of_pairwise_cons sorted later)
      next notAbove =>
        have split : front ++ p :: rest = (front ++ [p]) ++ rest := by simp
        rw [lists.linked.next_eq, split]
        refine ih (split ▸ lists) (Nat.lt_of_succ_lt_succ enough) ?_ ?_ ?_
        · intro
          rw [List.getLast?_concat]
        · intro q member
          rcases List.mem_append.mp member with earlier | new
          · exact below q earlier
          · rw [List.mem_singleton.mp new]
            exact lt_of_le_of_ne (not_lt.mp notAbove) other
        · exact fun q member => unused q (List.mem_cons_of_mem _ member)

/-- The loop that checks a rank. -/
theorem isAvailable (lists : s.Lists (front ++ back)) {steps : ℕ} (enough : back.length < steps) :
    s.isAvailable rank steps back.head? = some (decide (∀ q ∈ back, s.rank q ≠ rank)) := by
  induction back generalizing front steps with
  | nil =>
      obtain ⟨steps, rfl⟩ := Nat.exists_eq_add_one_of_ne_zero enough.ne'
      simp [State.isAvailable]
  | cons p rest ih =>
      obtain ⟨steps, rfl⟩ := Nat.exists_eq_add_one_of_ne_zero (Nat.ne_zero_of_lt enough)
      have sorted := (List.pairwise_append.mp lists.sorted).2.1
      rw [List.head?_cons, State.isAvailable]
      split
      next taken => simp [taken]
      next other =>
        split
        next above =>
          have unused : ∀ q ∈ p :: rest, s.rank q ≠ rank := by
            intro q member
            rcases List.mem_cons.mp member with rfl | later
            · exact other
            · exact (above.trans (List.rel_of_pairwise_cons sorted later)).ne'
          rw [decide_eq_true unused]
        next notAbove =>
          have split : front ++ p :: rest = (front ++ [p]) ++ rest := by simp
          rw [lists.linked.next_eq, ih (split ▸ lists) (Nat.lt_of_succ_lt_succ enough)]
          simp [other]

/-- An unused rank is the least one when all ranks below are in use. -/
theorem isLeast_unused (nonneg : 0 ≤ rank) (unused : ∀ q ∈ nodes, s.rank q ≠ rank)
    (used : ∀ k, 0 ≤ k → k < rank → ∃ q ∈ nodes, s.rank q = k) :
    IsLeast {k : ℤ | 0 ≤ k ∧ ∀ q ∈ nodes, s.rank q ≠ k} rank := by
  refine ⟨⟨nonneg, unused⟩, fun k ⟨positive, free⟩ => ?_⟩
  by_contra less
  obtain ⟨q, member, same⟩ := used k positive (not_le.mp less)
  exact free q member same

/-- The loop that finds an unused rank.  The ranks before it are those below. -/
theorem findUnused (lists : s.Lists (front ++ back)) {steps : ℕ} (enough : back.length < steps)
    (nonneg : 0 ≤ rank) (below : ∀ q ∈ front, s.rank q < rank)
    (used : ∀ k, 0 ≤ k → k < rank → ∃ q ∈ front, s.rank q = k)
    (above : ∀ q ∈ back, rank ≤ s.rank q) :
    ∃ unused, s.findUnused steps rank back.head? = some unused ∧
      IsLeast {k : ℤ | 0 ≤ k ∧ ∀ q ∈ front ++ back, s.rank q ≠ k} unused := by
  have usedAll : ∀ k, 0 ≤ k → k < rank → ∃ q ∈ front ++ back, s.rank q = k := by
    intro k positive less
    obtain ⟨q, member, same⟩ := used k positive less
    exact ⟨q, List.mem_append_left _ member, same⟩
  induction back generalizing front steps rank with
  | nil =>
      obtain ⟨steps, rfl⟩ := Nat.exists_eq_add_one_of_ne_zero enough.ne'
      refine ⟨rank, rfl, isLeast_unused nonneg (fun q member => ?_) usedAll⟩
      exact (below q (by simpa using member)).ne
  | cons p rest ih =>
      obtain ⟨steps, rfl⟩ := Nat.exists_eq_add_one_of_ne_zero (Nat.ne_zero_of_lt enough)
      have sorted := (List.pairwise_append.mp lists.sorted).2.1
      rw [List.head?_cons, State.findUnused]
      split
      next same =>
        have split : front ++ p :: rest = (front ++ [p]) ++ rest := by simp
        have usedNext : ∀ k, 0 ≤ k → k < rank + 1 → ∃ q ∈ front ++ [p], s.rank q = k := by
          intro k positive less
          rcases (Int.lt_add_one_iff.mp less).lt_or_eq with earlier | rfl
          · obtain ⟨q, member, same⟩ := used k positive earlier
            exact ⟨q, List.mem_append_left _ member, same⟩
          · exact ⟨p, by simp, same⟩
        rw [lists.linked.next_eq, split]
        refine ih (split ▸ lists) (Nat.lt_of_succ_lt_succ enough) (by omega) (fun q member => ?_)
          usedNext (fun q member => ?_) fun k positive less => ?_
        · rcases List.mem_append.mp member with earlier | new
          · exact (below q earlier).trans (lt_add_one _)
          · rw [List.mem_singleton.mp new, same]
            exact lt_add_one _
        · rw [← same]
          exact Int.add_one_le_of_lt (List.rel_of_pairwise_cons sorted member)
        · obtain ⟨q, member, same⟩ := usedNext k positive less
          exact ⟨q, List.mem_append_left _ member, same⟩
      next other =>
        refine ⟨rank, rfl, isLeast_unused nonneg (fun q member => ?_) usedAll⟩
        have first := lt_of_le_of_ne (above p List.mem_cons_self) (Ne.symm other)
        rcases List.mem_append.mp member with earlier | later
        · exact (below q earlier).ne
        · rcases List.mem_cons.mp later with rfl | later
          · exact first.ne'
          · exact (first.trans (List.rel_of_pairwise_cons sorted later)).ne'

variable [DecidableEq ι]

/-- **`xstream_remove_xstream_list` takes the stream out.** -/
theorem remove_eq (lists : s.Lists (front ++ p :: back)) :
    s.removeXstreamList p = some { s with
      xstreamHead := (front ++ back).head?
      next := relink s.next front.getLast? back.head?
      prev := relink s.prev back.head? front.getLast? } := by
  have next := lists.linked.next_eq
  have prev := lists.linked.prev_eq
  have head := lists.head
  rw [removeXstreamList, prev]
  cases front using List.reverseRecOn with
  | nil =>
      have first : s.xstreamHead = some p := head
      simp only [List.getLast?_nil, if_pos first, Option.map_some, setHead, next, prev]
      cases back with
      | nil => rfl
      | cons q back => rfl
  | append_singleton front last _ =>
      have other : p ≠ last := by
        rintro rfl
        exact (List.nodup_append.mp lists.nodup).2.2 p (by simp) p List.mem_cons_self rfl
      have same : Function.update s.next last back.head? p = back.head? := by
        rw [Function.update_of_ne other, next]
      have first : s.xstreamHead = (front ++ [last] ++ back).head? := by
        rw [head]
        cases front with
        | nil => rfl
        | cons => rfl
      simp only [List.getLast?_concat, Option.map_some, setNext, next, same, prev, first]
      cases back with
      | nil => rfl
      | cons q back => rfl

theorem remove (lists : s.Lists (front ++ p :: back)) :
    ∃ s', s.removeXstreamList p = some s' ∧ s'.Lists (front ++ back) ∧
      s' = { s with xstreamHead := s'.xstreamHead, next := s'.next, prev := s'.prev } := by
  refine ⟨_, lists.remove_eq, ⟨rfl, lists.linked.remove lists.nodup, ?_⟩, rfl⟩
  exact lists.sorted.sublist ((List.sublist_cons_self p back).append_left front)

/-- What `xstream_add_xstream_list` writes at the place that it has found. -/
theorem add_eq (lists : s.Lists (front ++ back)) (absent : p ∉ front ++ back)
    (notFirst : front = [] → back = []) {pPrev : Option ι}
    (place : s.findPlace (s.rank p) s.bound s.xstreamHead s.xstreamHead = some (pPrev, back.head?))
    (last : back = [] → pPrev = front.getLast?) :
    s.addXstreamList p = some { s with
      xstreamHead := (front ++ p :: back).head?
      next := relink (Function.update s.next p back.head?) front.getLast? (some p)
      prev := relink (Function.update s.prev p front.getLast?) back.head? (some p) } := by
  have head := lists.head
  rw [addXstreamList, place]
  cases front using List.reverseRecOn with
  | nil =>
      obtain rfl := notFirst rfl
      rw [last rfl]
      have empty : s.xstreamHead = none := head
      simp only [List.head?_nil, List.getLast?_nil, if_pos empty]
      rfl
  | append_singleton front q _ =>
      have other : p ≠ q := by
        rintro rfl
        simp at absent
      have first : (front ++ [q] ++ p :: back).head? = s.xstreamHead := by
        rw [head]
        cases front with
        | nil => rfl
        | cons => rfl
      rw [first]
      cases back with
      | nil =>
          rw [last rfl]
          simp only [List.head?_nil, List.getLast?_concat, setNext, setPrev, relink,
            Function.update_comm other]
      | cons x back =>
          have prev := lists.linked.prev_eq
          simp only [List.head?_cons, prev, List.getLast?_concat, setNext, setPrev, relink,
            Function.update_comm other]

/-- **`xstream_add_xstream_list` puts the stream in its place.**  Only an empty list may take it as
its head. -/
theorem add (lists : s.Lists nodes) (enough : nodes.length < s.bound) (absent : p ∉ nodes)
    (unused : ∀ q ∈ nodes, s.rank q ≠ s.rank p)
    (notFirst : ∀ q ∈ nodes.head?, s.rank q < s.rank p) :
    ∃ s' front back, s.addXstreamList p = some s' ∧ nodes = front ++ back ∧
      s'.Lists (front ++ p :: back) ∧
      s' = { s with xstreamHead := s'.xstreamHead, next := s'.next, prev := s'.prev } := by
  have whole : s.Lists ([] ++ nodes) := lists
  have start : nodes = [] → s.xstreamHead = ([] : List ι).getLast? := by
    rintro rfl
    exact lists.head
  obtain ⟨front, back, pPrev, split, place, last, below, above⟩ :=
    whole.findPlace enough start (by simp) unused
  obtain rfl : nodes = front ++ back := split
  have nodup : (front ++ p :: back).Nodup := List.nodup_middle.mpr (lists.nodup.cons absent)
  rw [← lists.head] at place
  refine ⟨_, front, back, lists.add_eq absent ?_ place last, rfl,
    ⟨rfl, lists.linked.insert nodup, ?_⟩, rfl⟩
  · rintro rfl
    cases back with
    | nil => rfl
    | cons q back =>
        exact absurd (above q List.mem_cons_self) (notFirst q rfl).not_gt
  · obtain ⟨first, second, apart⟩ := List.pairwise_append.mp lists.sorted
    refine List.pairwise_append.mpr ⟨first, List.pairwise_cons.mpr ⟨above, second⟩, ?_⟩
    intro q inFront r member
    rcases List.mem_cons.mp member with rfl | later
    · exact below q inFront
    · exact apart q inFront r later

end State.Lists

end ArgobotsReduction.Streams
