import Mathlib.Data.Nat.Basic
import ArgobotsReduction.Containers.LinkedChain
import ArgobotsReduction.Containers.Stack
import ArgobotsReduction.Parallel.Linearization

/-!
# The lock-free LIFO

`ABTI_sync_lifo` links its elements behind a top pointer, which has a tag beside it.  A push or a
pop loads the pointer and then the tag, prepares the new top, and replaces both with one
compare-and-swap, which also counts the tag up.  The two loads are not atomic as a pair, and
the compare-and-swap may fail for no reason.

Meanwhile others may pop the loaded element and push it again, so that the same pointer is on top
again with something else behind it.  The tag then differs.  A successful compare-and-swap
finds the tag of the load, so nothing has happened since, and the link that has been read is
the current one.  So every operation takes effect on a stack at its compare-and-swap, and a pop
returns NULL only when the stack was empty at its load (`lifo_linearizes`).

The memory of an element belongs to its user while it is neither in the LIFO nor being
pushed, and a link is one of the things that may be written there.  The tag is a natural number: it
does not wrap.
-/

set_option autoImplicit false

namespace ArgobotsReduction.Sync.Lifo

open Containers Parallel

universe u v

variable {ι : Type u} {E : Type v}

/-! ## The operations -/

/-- `ABTI_sync_lifo` and the links of the elements.  No operation reads the last field: it says
which elements are neither in the LIFO nor being pushed. -/
structure State (E : Type v) where
  ptr : Option E
  tag : ℕ
  next : E → Option E
  free : E → Bool

/-- What a caller begins. -/
inductive Operation (E : Type v) where
  | push (elem : E)
  | pop
  /-- The user of an element writes to its memory. -/
  | use (elem : E) (value : Option E)
  deriving DecidableEq

/-- The operation that a caller begins, and whether its compare-and-swap fails for no reason. -/
structure Choice (E : Type v) where
  operation : Operation E
  fails : Bool
  deriving DecidableEq

/-- The places of the operations, with their local variables. -/
inductive Place (E : Type v) where
  | outside
  | pushPtr (elem : E)
  | pushTag (elem : E) (curTop : Option E)
  | pushNext (elem : E) (curTop : Option E) (curTag : ℕ)
  | pushCas (elem : E) (curTop : Option E) (curTag : ℕ)
  | pushed (elem : E)
  | popPtr
  | popTag (curTop : Option E)
  | popNext (curTop : E) (curTag : ℕ)
  | popCas (curTop : E) (curTag : ℕ) (next : Option E)
  | popped (result : Option E)
  deriving DecidableEq

variable [DecidableEq E]

/-- `ABTD_atomic_bool_cas_weak_tagged_ptr` -/
def State.cas (s : State E) (fails : Bool) (oldPtr : Option E) (oldTag : ℕ) (newPtr : Option E)
    (newTag : ℕ) : Option (State E) :=
  if fails = false ∧ s.ptr = oldPtr ∧ s.tag = oldTag then
    some { s with ptr := newPtr, tag := newTag }
  else none

/-- A turn in `ABTI_sync_lifo_push` or `ABTI_sync_lifo_pop`.  Only a free element is pushed or
written to. -/
def turn (choice : Choice E) (s : State E) : Place E → Option (State E × Place E)
  | .outside =>
      match choice.operation with
      | .push elem =>
          if s.free elem then
            some ({ s with free := Function.update s.free elem false }, .pushPtr elem)
          else none
      | .pop => some (s, .popPtr)
      | .use elem value =>
          if s.free elem then
            some ({ s with next := Function.update s.next elem value }, .outside)
          else none
  | .pushPtr elem => some (s, .pushTag elem s.ptr)
  | .pushTag elem curTop => some (s, .pushNext elem curTop s.tag)
  | .pushNext elem curTop curTag =>
      some ({ s with next := Function.update s.next elem curTop }, .pushCas elem curTop curTag)
  | .pushCas elem curTop curTag =>
      match s.cas choice.fails curTop curTag (some elem) (curTag + 1) with
      | some s => some (s, .pushed elem)
      | none => some (s, .pushPtr elem)
  | .pushed _ => some (s, .outside)
  | .popPtr => some (s, .popTag s.ptr)
  | .popTag none => some (s, .popped none)
  | .popTag (some curTop) => some (s, .popNext curTop s.tag)
  | .popNext curTop curTag => some (s, .popCas curTop curTag (s.next curTop))
  | .popCas curTop curTag next =>
      match s.cas choice.fails (some curTop) curTag next (curTag + 1) with
      | some s => some ({ s with free := Function.update s.free curTop true }, .popped (some curTop))
      | none => some (s, .popPtr)
  | .popped _ => some (s, .outside)

/-- The effect of a turn on the stack, which a successful compare-and-swap has. -/
def effect (choice : Choice E) (s : State E) : Place E → Option (StackOp E)
  | .pushCas elem curTop curTag =>
      (s.cas choice.fails curTop curTag (some elem) (curTag + 1)).map fun _ => .push elem
  | .popCas curTop curTag next =>
      (s.cas choice.fails (some curTop) curTag next (curTag + 1)).map fun _ => .pop curTop
  | _ => none

/-- The callers of one LIFO -/
def calls (ι : Type u) (E : Type v) [DecidableEq E] : Callers ι (State E) (Place E) (Choice E) where
  turn _ := turn

/-- `ABTI_sync_lifo_init`, and nobody uses the LIFO yet. -/
structure Begins (world : World ι (State E) (Place E)) : Prop where
  ptr : world.shared.ptr = none
  tag : world.shared.tag = 0
  free : ∀ elem, world.shared.free elem = true
  outside : ∀ c, world.place c = .outside

/-- Any number of callers of one LIFO -/
def lifos (ι : Type u) [DecidableEq ι] (E : Type v) [DecidableEq E] :
    Machine (World ι (State E) (Place E)) (ι × Choice E) :=
  (calls ι E).machine Begins

/-- What the turns of the callers do to the stack, in their order -/
abbrev Performed [DecidableEq ι] : List (StackOp E) → World ι (State E) (Place E) → Prop :=
  (lifos ι E).Effects Machine.anyEvent (Callers.effect fun _ => effect)

/-! ## Assertions -/

/-- The contents of the stack, and who is pushing an element -/
structure Ghost (ι : Type u) (E : Type v) where
  stack : List E
  pusher : E → Option ι

/-- The element that is being pushed -/
def Place.pushes : Place E → Option E
  | .pushPtr elem | .pushTag elem _ | .pushNext elem _ _ | .pushCas elem _ _ => some elem
  | _ => none

/-- What a caller knows of its local variables. -/
def PlaceAt (s : State E) : Place E → Prop
  | .pushCas elem curTop _ => s.next elem = curTop
  | .popNext _ curTag => curTag ≤ s.tag
  | .popCas curTop curTag next =>
      curTag ≤ s.tag ∧ (s.tag = curTag → s.ptr = some curTop → s.next curTop = next)
  | _ => True

/-- The assertion of a caller -/
structure Local (g : Ghost ι E) (c : ι) (s : State E) (place : Place E) : Prop where
  pusher : ∀ elem, g.pusher elem = some c ↔ place.pushes = some elem
  known : PlaceAt s place

/-- The stack is linked behind the top, and every element is free, being pushed, or in the
stack. -/
structure Global (g : Ghost ι E) (s : State E) : Prop where
  linked : Linked s.next s.ptr g.stack
  nodup : g.stack.Nodup
  free : ∀ elem, s.free elem = true ↔ elem ∉ g.stack ∧ g.pusher elem = none
  apart : ∀ elem ∈ g.stack, g.pusher elem = none

/-- What a turn of another caller leaves to a caller.  As long as the tag stays, so do the top and
its link. -/
structure Keeps (g g' : Ghost ι E) (s s' : State E) (d : ι) : Prop where
  pusher : ∀ elem, g'.pusher elem = some d ↔ g.pusher elem = some d
  own : ∀ elem, g.pusher elem = some d → s'.next elem = s.next elem
  tag : s.tag ≤ s'.tag
  same : s'.tag = s.tag → s'.ptr = s.ptr ∧ ∀ elem, s.ptr = some elem → s'.next elem = s.next elem

section Turn

variable {g g' : Ghost ι E} {c d : ι} {s s' : State E} {place place' : Place E} {choice : Choice E}

theorem cas_eq_some {fails : Bool} {oldPtr newPtr : Option E} {oldTag newTag : ℕ} :
    s.cas fails oldPtr oldTag newPtr newTag = some s' ↔
      fails = false ∧ s.ptr = oldPtr ∧ s.tag = oldTag ∧
        s' = { s with ptr := newPtr, tag := newTag } := by
  rw [State.cas, Option.ite_none_right_eq_some, Option.some_inj, eq_comm (a := s')]
  simp only [and_assoc]

omit [DecidableEq E] in
theorem Keeps.refl : Keeps g g s s d :=
  ⟨fun _ => .rfl, fun _ _ => rfl, le_rfl, fun _ => ⟨rfl, fun _ _ => rfl⟩⟩

omit [DecidableEq E] in
theorem Local.mono (keeps : Keeps g g' s s' d) (holds : Local g d s place) :
    Local g' d s' place where
  pusher elem := (keeps.pusher elem).trans (holds.pusher elem)
  known := by
    have known := holds.known
    cases place with
    | pushCas elem curTop curTag =>
        exact (keeps.own elem ((holds.pusher elem).mpr rfl)).trans known
    | popNext curTop curTag => exact le_trans known keeps.tag
    | popCas curTop curTag next =>
        obtain ⟨before, read⟩ := known
        refine ⟨le_trans before keeps.tag, fun tagged onTop => ?_⟩
        -- the tag of the load is still there, so nothing has happened since
        have unchanged : s'.tag = s.tag := le_antisymm (le_of_eq_of_le tagged before) keeps.tag
        obtain ⟨ptr, links⟩ := keeps.same unchanged
        have stands : s.ptr = some curTop := ptr.symm.trans onTop
        rw [links curTop stands]
        exact read (unchanged.symm.trans tagged) stands
    | _ => trivial

/-- What a turn has to establish. -/
def Fine (g : Ghost ι E) (c : ι) (s s' : State E) (effect : Option (StackOp E))
    (place' : Place E) : Prop :=
  ∃ g' : Ghost ι E, effect.toList.foldlM StackOp.apply g.stack = some g'.stack ∧ Global g' s' ∧
    Local g' c s' place' ∧ ∀ d, d ≠ c → Keeps g g' s s' d

/-- A turn that changes nothing that is shared. -/
theorem Local.still (holds : Local g c s place) (fine : Global g s)
    (pushes : place'.pushes = place.pushes) (known : PlaceAt s place') :
    Fine g c s s none place' :=
  ⟨g, rfl, fine, ⟨fun elem => pushes ▸ holds.pusher elem, known⟩, fun _ _ => .refl⟩

/-- A caller writes the link of an element that is not in the stack. -/
theorem Local.write (holds : Local g c s place) (fine : Global g s) {elem : E} {value : Option E}
    (outside : elem ∉ g.stack) (others : ∀ d, d ≠ c → g.pusher elem ≠ some d)
    (pushes : place'.pushes = place.pushes)
    (known : PlaceAt { s with next := Function.update s.next elem value } place') :
    Fine g c s { s with next := Function.update s.next elem value } none place' := by
  have links : ∀ e ∈ g.stack, Function.update s.next elem value e = s.next e := fun e member =>
    Function.update_of_ne (ne_of_mem_of_not_mem member outside) _ _
  refine ⟨g, rfl, ⟨fine.linked.congr links, fine.nodup, fine.free, fine.apart⟩,
    ⟨fun e => pushes ▸ holds.pusher e, known⟩, fun d different => ⟨fun _ => .rfl, ?_, le_rfl, ?_⟩⟩
  · intro e theirs
    refine Function.update_of_ne ?_ _ _
    rintro rfl
    exact others d different theirs
  · intro _
    exact ⟨rfl, fun e onTop => links e (onTop ▸ fine.linked).mem_of_some⟩

/-- A caller begins to push a free element. -/
theorem Local.takes (holds : Local g c s place) (fine : Global g s) {elem : E}
    (free : s.free elem = true) (idle : place.pushes = none) :
    Fine g c s { s with free := Function.update s.free elem false } none (.pushPtr elem) := by
  obtain ⟨outside, nobody⟩ := (fine.free elem).mp free
  refine ⟨⟨g.stack, Function.update g.pusher elem (some c)⟩, rfl,
    ⟨fine.linked, fine.nodup, fun e => ?_, fun e member => ?_⟩, ⟨fun e => ?_, trivial⟩,
    fun d different => ⟨fun e => ?_, fun _ _ => rfl, le_rfl, fun _ => ⟨rfl, fun _ _ => rfl⟩⟩⟩
  · rcases eq_or_ne e elem with rfl | other
    · simp
    · simpa only [Function.update_of_ne other] using fine.free e
  · have other : e ≠ elem := ne_of_mem_of_not_mem member outside
    exact (Function.update_of_ne other _ _).trans (fine.apart e member)
  · rcases eq_or_ne e elem with rfl | other
    · simp [Place.pushes]
    · have before := holds.pusher e
      rw [idle] at before
      simpa [Function.update_of_ne other, Place.pushes, other.symm] using before
  · rcases eq_or_ne e elem with rfl | other
    · simp [nobody, different.symm]
    · simp only [Function.update_of_ne other]

/-- **A push takes effect.** -/
theorem Local.push {elem : E} {curTop : Option E} {curTag : ℕ}
    (holds : Local g c s (.pushCas elem curTop curTag)) (fine : Global g s)
    (swapped : s.cas choice.fails curTop curTag (some elem) (curTag + 1) = some s') :
    Fine g c s s' (some (.push elem)) (.pushed elem) := by
  obtain ⟨-, rfl, rfl, rfl⟩ := cas_eq_some.mp swapped
  have mine : g.pusher elem = some c := (holds.pusher elem).mpr rfl
  have outside : elem ∉ g.stack := by
    intro member
    rw [fine.apart elem member] at mine
    cases mine
  have link : s.next elem = s.ptr := holds.known
  refine ⟨⟨elem :: g.stack, Function.update g.pusher elem none⟩, ?_,
    ⟨⟨rfl, ?_⟩, List.nodup_cons.mpr ⟨outside, fine.nodup⟩, fun e => ?_, fun e member => ?_⟩,
    ⟨fun e => ?_, trivial⟩,
    fun d different => ⟨fun e => ?_, fun _ _ => rfl, Nat.le_succ _, fun same => ?_⟩⟩
  · simpa using StackOp.apply_push_eq_some.mpr ⟨outside, rfl⟩
  · rw [link]
    exact fine.linked
  · rcases eq_or_ne e elem with rfl | other
    · have notFree : ¬s.free e = true := fun free => by
        rw [((fine.free e).mp free).2] at mine
        cases mine
      simp [notFree]
    · simpa [Function.update_of_ne other, other] using fine.free e
  · rcases List.mem_cons.mp member with rfl | behind
    · exact Function.update_self ..
    · have other : e ≠ elem := ne_of_mem_of_not_mem behind outside
      exact (Function.update_of_ne other _ _).trans (fine.apart e behind)
  · rcases eq_or_ne e elem with rfl | other
    · simp [Place.pushes]
    · simpa [Function.update_of_ne other, Place.pushes, other.symm] using holds.pusher e
  · rcases eq_or_ne e elem with rfl | other
    · simp [mine, different.symm]
    · simp only [Function.update_of_ne other]
  · exact absurd same (Nat.succ_ne_self _)

/-- **A pop takes effect.** -/
theorem Local.pop {curTop : E} {curTag : ℕ} {next : Option E}
    (holds : Local g c s (.popCas curTop curTag next)) (fine : Global g s)
    (swapped : s.cas choice.fails (some curTop) curTag next (curTag + 1) = some s') :
    Fine g c s { s' with free := Function.update s'.free curTop true } (some (.pop curTop))
      (.popped (some curTop)) := by
  obtain ⟨-, onTop, rfl, rfl⟩ := cas_eq_some.mp swapped
  have link : s.next curTop = next := holds.known.2 rfl onTop
  obtain ⟨stack, pusher⟩ := g
  cases stack with
  | nil =>
      have isEmpty : s.ptr = none := fine.linked
      rw [isEmpty] at onTop
      cases onTop
  | cons top rest =>
      obtain ⟨first, linked⟩ := fine.linked
      obtain rfl : top = curTop := Option.some.inj (first.symm.trans onTop)
      obtain ⟨notBehind, nodup⟩ := List.nodup_cons.mp fine.nodup
      refine ⟨⟨rest, pusher⟩, ?_, ⟨link ▸ linked, nodup, fun e => ?_, fun e member => ?_⟩,
        ⟨fun e => ?_, trivial⟩,
        fun d different => ⟨fun _ => .rfl, fun _ _ => rfl, Nat.le_succ _, fun same => ?_⟩⟩
      · simpa using StackOp.apply_pop_eq_some.mpr rfl
      · rcases eq_or_ne e top with rfl | other
        · have nobody : pusher e = none := fine.apart e List.mem_cons_self
          simp [notBehind, nobody]
        · simpa [Function.update_of_ne other, other] using fine.free e
      · exact fine.apart e (List.mem_cons_of_mem _ member)
      · simpa [Place.pushes] using holds.pusher e
      · exact absurd same (Nat.succ_ne_self _)

/-- **Every turn keeps the assertions, and changes the stack by its effect.** -/
theorem Local.turn (holds : Local g c s place) (fine : Global g s)
    (taken : turn choice s place = some (s', place')) :
    Fine g c s s' (effect choice s place) place' := by
  have known := holds.known
  cases place with
  | outside =>
      obtain ⟨operation, fails⟩ := choice
      cases operation with
      | push elem =>
          obtain ⟨free, result⟩ := Option.ite_none_right_eq_some.mp taken
          cases result
          exact holds.takes fine free rfl
      | pop =>
          cases taken
          exact holds.still fine rfl trivial
      | use elem value =>
          obtain ⟨free, result⟩ := Option.ite_none_right_eq_some.mp taken
          cases result
          obtain ⟨outside, nobody⟩ := (fine.free elem).mp free
          exact holds.write fine outside (fun d _ => by simp [nobody]) rfl trivial
  | pushPtr elem =>
      cases taken
      exact holds.still fine rfl trivial
  | pushTag elem curTop =>
      cases taken
      exact holds.still fine rfl trivial
  | pushNext elem curTop curTag =>
      cases taken
      have mine : g.pusher elem = some c := (holds.pusher elem).mpr rfl
      have outside : elem ∉ g.stack := by
        intro member
        rw [fine.apart elem member] at mine
        cases mine
      refine holds.write fine outside (fun d different => ?_) rfl (Function.update_self ..)
      simpa [mine] using different.symm
  | pushCas elem curTop curTag =>
      rw [Lifo.turn] at taken
      rw [effect]
      split at taken
      next swapped =>
        cases taken
        rw [swapped]
        exact holds.push fine swapped
      next failed =>
        cases taken
        rw [failed]
        exact holds.still fine rfl trivial
  | popCas curTop curTag next =>
      rw [Lifo.turn] at taken
      rw [effect]
      split at taken
      next swapped =>
        cases taken
        rw [swapped]
        exact holds.pop fine swapped
      next failed =>
        cases taken
        rw [failed]
        exact holds.still fine rfl trivial
  | popPtr =>
      cases taken
      exact holds.still fine rfl trivial
  | popTag curTop =>
      cases curTop with
      | none =>
          cases taken
          exact holds.still fine rfl trivial
      | some curTop =>
          cases taken
          exact holds.still fine rfl (le_refl s.tag)
  | popNext curTop curTag =>
      cases taken
      exact holds.still fine rfl ⟨known, fun _ _ => rfl⟩
  | pushed elem =>
      cases taken
      exact holds.still fine rfl trivial
  | popped result =>
      cases taken
      exact holds.still fine rfl trivial

/-- A turn ends an operation exactly when it has the effect of the operation. -/
theorem turn_returns (taken : turn choice s place = some (s', place')) :
    (∀ elem, place' = .pushed elem ↔ effect choice s place = some (.push elem)) ∧
      (∀ elem, place' = .popped (some elem) ↔ effect choice s place = some (.pop elem)) ∧
      (place' = .popTag none → s' = s ∧ place = .popPtr ∧ s.ptr = none) ∧
      (place' = .popped none → place = .popTag none) := by
  cases place with
  | outside =>
      obtain ⟨operation, fails⟩ := choice
      cases operation with
      | push elem | use elem value =>
          obtain ⟨-, result⟩ := Option.ite_none_right_eq_some.mp taken
          cases result
          simp [effect]
      | pop =>
          cases taken
          simp [effect]
  | pushCas elem curTop curTag =>
      rw [turn] at taken
      rw [effect]
      split at taken
      next swapped =>
        cases taken
        simp [swapped]
      next failed =>
        cases taken
        simp [failed]
  | popCas curTop curTag next =>
      rw [turn] at taken
      rw [effect]
      split at taken
      next swapped =>
        cases taken
        simp [swapped]
      next failed =>
        cases taken
        simp [failed]
  | popTag curTop => cases curTop <;> cases taken <;> simp [effect]
  | _ =>
      cases taken
      simp [effect]

/-- A pop that returns NULL, from its load on -/
def LoadedNull (place : Place E) : Prop := place = .popTag none ∨ place = .popped none

/-- NULL has been loaded from an empty LIFO. -/
theorem turn_loads (taken : turn choice s place = some (s', place'))
    (earlier : ¬LoadedNull place) (loaded : LoadedNull place') :
    place = .popPtr ∧ s.ptr = none ∧ place' = .popTag none := by
  obtain ⟨-, -, loads, returns⟩ := turn_returns taken
  rcases loaded with rfl | rfl
  · obtain ⟨-, here, isEmpty⟩ := loads rfl
    exact ⟨here, isEmpty, rfl⟩
  · exact absurd (.inl (returns rfl)) earlier

end Turn

/-! ## Runs -/

variable [DecidableEq ι] {world : World ι (State E) (Place E)} {ops : List (StackOp E)}

/-- Every run keeps the assertions, and its effects are the history of the stack. -/
theorem Local.of_performed (performed : Performed ops world) :
    ∃ g : Ghost ι E, afterHistory ops = some g.stack ∧ Global g world.shared ∧
      ∀ c, Local g c world.shared (world.place c) := by
  refine Callers.linearizes Ghost.stack Global (fun g c => Local g c) ?_ ?_ performed
  · intro world begins
    refine ⟨⟨[], fun _ => none⟩, rfl, ⟨begins.ptr, List.nodup_nil, ?_, by simp⟩, fun c => ?_⟩
    · intro elem
      simp [begins.free elem]
    · rw [begins.outside c]
      exact ⟨fun elem => by simp [Place.pushes], trivial⟩
  · intro g c choice s place s' place' fine holds taken
    obtain ⟨g', applied, fine', mine, keeps⟩ := holds.turn fine taken
    exact ⟨g', applied, fine', mine, fun d different _ theirs => theirs.mono (keeps d different)⟩

/-- The LIFO is a stack: what its history leaves is linked behind the top pointer, and every
element is free, or in the stack, or being pushed by one caller. -/
structure Stands (ops : List (StackOp E)) (world : World ι (State E) (Place E)) (stack : List E) :
    Prop where
  happened : afterHistory ops = some stack
  linked : Linked world.shared.next world.shared.ptr stack
  nodup : stack.Nodup
  free : ∀ elem, world.shared.free elem = true ↔
    elem ∉ stack ∧ ∀ c, (world.place c).pushes ≠ some elem
  apart : ∀ elem ∈ stack, ∀ c, (world.place c).pushes ≠ some elem
  pusher : ∀ elem c d, (world.place c).pushes = some elem → (world.place d).pushes = some elem →
    c = d
  counted : ∀ elem, ops.count (.push elem) = ops.count (.pop elem) + stack.count elem
  between : ∀ elem first second third, ops = first ++ .pop elem :: second ++ .pop elem :: third →
    .push elem ∈ second

theorem Stands.of_performed (performed : Performed ops world) : ∃ stack, Stands ops world stack := by
  obtain ⟨g, happened, fine, holds⟩ := Local.of_performed performed
  have nobody : ∀ elem, g.pusher elem = none ↔ ∀ c, (world.place c).pushes ≠ some elem := by
    intro elem
    rw [Option.eq_none_iff_forall_ne_some]
    exact forall_congr' fun c => not_congr ((holds c).pusher elem)
  refine ⟨g.stack, happened, fine.linked, fine.nodup, fun elem => ?_, fun elem member => ?_, ?_,
    count_history happened, ?_⟩
  · rw [fine.free elem, nobody elem]
  · exact (nobody elem).mp (fine.apart elem member)
  · intro elem c d byC byD
    have first : g.pusher elem = some c := ((holds c).pusher elem).mpr byC
    have second : g.pusher elem = some d := ((holds d).pusher elem).mpr byD
    exact Option.some.inj (first.symm.trans second)
  · rintro elem first second third rfl
    exact push_between_pops happened

/-- **The LIFO linearizes as a stack.**  The effects of a run are a history of a stack, which
is linked behind the top pointer; an operation returns exactly when it has had its effect; and a
pop returns NULL only when the stack was empty at its load of the top. -/
theorem lifo_linearizes :
    (∀ ops (world : World ι (State E) (Place E)), Performed ops world →
      ∃ stack, Stands ops world stack) ∧
    (∀ world : World ι (State E) (Place E), (lifos ι E).Reachable Machine.anyEvent world →
      ∃ ops, Performed ops world) ∧
    (∀ (choice : Choice E) (s s' : State E) (place place' : Place E),
      turn choice s place = some (s', place') →
      (∀ elem, place' = .pushed elem ↔ effect choice s place = some (.push elem)) ∧
      (∀ elem, place' = .popped (some elem) ↔ effect choice s place = some (.pop elem))) ∧
    ∀ (world : World ι (State E) (Place E)) past c,
      (lifos ι E).Run Machine.anyEvent (world :: past) → world.place c = .popped none →
      ∃ stretch loaded before earlier, world :: past = stretch ++ loaded :: before :: earlier ∧
        (∀ during ∈ stretch, LoadedNull (during.place c)) ∧ loaded.place c = .popTag none ∧
        before.place c = .popPtr ∧ before.shared.ptr = none ∧
        ∀ ops, Performed ops before → afterHistory ops = some [] := by
  refine ⟨fun ops world => Stands.of_performed, fun world => Machine.Reachable.exists_effects,
    fun choice s s' place place' taken => ?_, fun world past c run returns => ?_⟩
  · obtain ⟨pushes, pops, -⟩ := turn_returns taken
    exact ⟨pushes, pops⟩
  · obtain ⟨stretch, loaded, before, earlier, ⟨d, choice⟩, whole, stays, there, notYet, step⟩ :=
      run.entry (fun world => LoadedNull (world.place c))
        (fun world begins => by simp [begins.outside c, LoadedNull]) rfl (.inr returns)
    obtain ⟨s, place, taken, rfl⟩ := Callers.step_eq_some.mp step
    have own : d = c := by
      by_contra different
      simp only [Function.update_of_ne (Ne.symm different)] at there
      exact notYet there
    subst own
    simp only [Function.update_self] at there
    obtain ⟨here, isEmpty, rfl⟩ := turn_loads taken notYet there
    refine ⟨stretch, _, before, earlier, whole, stays, Function.update_self .., here, isEmpty, ?_⟩
    intro ops performed
    obtain ⟨stack, stands⟩ := Stands.of_performed performed
    have linked : Linked before.shared.next none stack := isEmpty ▸ stands.linked
    rw [stands.happened, linked.unique (Linked.nil_iff.mpr rfl)]

/-- Two elements are pushed, and while a pop holds the top and its tag, another caller pops both
and pushes the first one again.  The compare-and-swap fails, and the pop begins anew.  A second
pop returns NULL. -/
def poppedAndPushedAgain : List (Fin 2 × Choice (Fin 2)) :=
  let push (c elem : Fin 2) : List (Fin 2 × Choice (Fin 2)) :=
    List.replicate 6 (c, ⟨.push elem, false⟩)
  let pop (c : Fin 2) (turns : ℕ) : List (Fin 2 × Choice (Fin 2)) :=
    List.replicate turns (c, ⟨.pop, false⟩)
  push 1 0 ++ push 1 1 ++ pop 0 4 ++ pop 1 12 ++ push 1 1 ++ pop 0 9

theorem lifo_linearizes_popped_and_pushed_again :
    ∃ (world : World (Fin 2) (State (Fin 2)) (Place (Fin 2))) (past : List _)
      (ops : List (StackOp (Fin 2))),
      (lifos (Fin 2) (Fin 2)).Run Machine.anyEvent (world :: past) ∧
        world.place 0 = .popped none ∧ world.shared.tag = 6 ∧
        (∃ stack, Stands ops world stack) ∧ ∃ before ∈ past, before.shared.ptr = none := by
  let begins : World (Fin 2) (State (Fin 2)) (Place (Fin 2)) :=
    ⟨⟨none, 0, fun _ => none, fun _ => true⟩, fun _ => .outside⟩
  have initial : (lifos (Fin 2) (Fin 2)).init begins := ⟨rfl, rfl, fun _ => rfl, fun _ => rfl⟩
  obtain ⟨world, reachable, ends⟩ := Machine.exists_reachable_of_play Machine.anyEvent initial
    poppedAndPushedAgain (fun world => world.place 0 = .popped none ∧ world.shared.tag = 6)
    (by decide)
  obtain ⟨returns, tag⟩ := of_decide_eq_true ends
  obtain ⟨stands, performed, -, null⟩ := lifo_linearizes (ι := Fin 2) (E := Fin 2)
  obtain ⟨ops, performed⟩ := performed world reachable
  obtain ⟨past, run⟩ := reachable
  obtain ⟨stretch, loaded, before, earlier, whole, -, -, -, isEmpty, -⟩ :=
    null world past 0 run returns
  refine ⟨world, past, ops, run, returns, tag, stands ops world performed, before, ?_, isEmpty⟩
  cases stretch with
  | nil =>
      obtain ⟨-, rfl⟩ := List.cons.inj whole
      exact List.mem_cons_self
  | cons first stretch =>
      obtain ⟨-, rfl⟩ := List.cons.inj whole
      simp

end ArgobotsReduction.Sync.Lifo
