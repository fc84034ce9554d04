import ArgobotsReduction.Threads.Ythread

/-!
# Units, callbacks and joiners

In any run the units of a pool are ready ULTs of that pool, without repetition,
only running ULTs are in a blocking callback, and the joiner of a ULT that has
not ended is blocked and joins no other (`Shape`).  Each primitive operation
keeps this if the ULT it changes is at no other place.

While a ULT ends, its joiner is resumed before the ULT is terminated; in between
the ULT is left out of what the shape says of joiners.
-/

set_option autoImplicit false

namespace ArgobotsReduction.Threads

universe u v

variable {Ult : Type u} {Pool : Type v}

/-- A ULT that is not terminated has a joiner.  The ULT that is just ending is
left out. -/
def Joins (dying : Option Ult) (s : State Ult Pool) (target joiner : Ult) : Prop :=
  (s.ult target).state ≠ .terminated ∧ some target ≠ dying ∧ (s.ult target).link = some joiner

/-- The units of a pool are ready and in that pool, only running ULTs are in a
blocking callback, and joiners are blocked. -/
structure Shape (dying : Option Ult) (s : State Ult Pool) : Prop where
  units : ∀ pool, ∀ u ∈ s.units pool, (s.ult u).state = .ready ∧ (s.ult u).pool = pool
  nodup : ∀ pool, (s.units pool).Nodup
  callback : ∀ u, (s.ult u).callback ≠ none → (s.ult u).state = .running
  joiner : ∀ target joiner, Joins dying s target joiner → (s.ult joiner).state = .blocked
  unique : ∀ target other joiner, Joins dying s target joiner → Joins dying s other joiner →
    target = other

section Shape

variable {dying : Option Ult} {s : State Ult Pool} {u target : Ult}

theorem Shape.notMem_units (shape : Shape dying s) (notReady : (s.ult u).state ≠ .ready)
    (pool : Pool) : u ∉ s.units pool :=
  fun member => notReady (shape.units pool u member).1

theorem Shape.not_joins (shape : Shape dying s) (notBlocked : (s.ult u).state ≠ .blocked)
    (target : Ult) : ¬Joins dying s target u :=
  fun joins => notBlocked (shape.joiner target u joins)

theorem Shape.callback_none (shape : Shape dying s) (notRunning : (s.ult u).state ≠ .running) :
    (s.ult u).callback = none := by
  by_contra inCallback
  exact notRunning (shape.callback u inCallback)

/-- The shape says nothing about counters. -/
theorem Shape.counters (shape : Shape dying s) {after : State Ult Pool}
    (sameUlt : after.ult = s.ult) (sameUnits : after.units = s.units) : Shape dying after := by
  have joins : ∀ target joiner, Joins dying after target joiner ↔ Joins dying s target joiner := by
    intro target joiner
    rw [Joins, Joins, sameUlt]
  constructor
  · rw [sameUnits, sameUlt]; exact shape.units
  · rw [sameUnits]; exact shape.nodup
  · rw [sameUlt]; exact shape.callback
  · simp only [joins, sameUlt]; exact shape.joiner
  · simp only [joins]; exact shape.unique

/-- A ULT whose end begins has no joiner any more. -/
theorem Shape.begin_end (shape : Shape none s) (u : Ult) : Shape (some u) s := by
  have joins : ∀ target joiner, Joins (some u) s target joiner → Joins none s target joiner :=
    fun target joiner after => ⟨after.1, Option.some_ne_none _, after.2.2⟩
  exact
    { units := shape.units
      nodup := shape.nodup
      callback := shape.callback
      joiner := fun target joiner after => shape.joiner target joiner (joins target joiner after)
      unique := fun target other joiner first second =>
        shape.unique target other joiner (joins target joiner first) (joins other joiner second) }

end Shape

section Primitives

variable [DecidableEq Ult] {dying : Option Ult} {s : State Ult Pool} {u : Ult}

/-- **A change of one ULT keeps the shape**, if its units and its joiner still agree
with it. -/
theorem Shape.modify {f : Ythread Ult Pool → Ythread Ult Pool} (shape : Shape dying s)
    (units : ∀ pool, u ∈ s.units pool → (f (s.ult u)).state = .ready ∧ (f (s.ult u)).pool = pool)
    (callback : (f (s.ult u)).callback ≠ none → (f (s.ult u)).state = .running)
    (joined : (f (s.ult u)).state ≠ .blocked → ∀ target, ¬Joins dying s target u)
    (link : ∀ joiner, (f (s.ult u)).state ≠ .terminated → some u ≠ dying →
      (f (s.ult u)).link = some joiner → Joins dying s u joiner) :
    Shape dying (s.modify u f) := by
  have joins : ∀ target joiner, Joins dying (s.modify u f) target joiner →
      Joins dying s target joiner := by
    intro target joiner after
    rcases eq_or_ne target u with rfl | different
    · obtain ⟨live, notDying, linked⟩ := after
      rw [State.modify_self] at live linked
      exact link joiner live notDying linked
    · rwa [Joins, State.modify_of_ne different] at after
  constructor
  · intro pool t member
    rcases eq_or_ne t u with rfl | different
    · rw [State.modify_self]
      exact units pool member
    · rw [State.modify_of_ne different]
      exact shape.units pool t member
  · exact shape.nodup
  · intro t
    rcases eq_or_ne t u with rfl | different
    · rw [State.modify_self]
      exact callback
    · rw [State.modify_of_ne different]
      exact shape.callback t
  · intro target joiner after
    have before := joins target joiner after
    rcases eq_or_ne joiner u with rfl | different
    · rw [State.modify_self]
      by_contra notBlocked
      exact joined notBlocked target before
    · rw [State.modify_of_ne different]
      exact shape.joiner target joiner before
  · intro target t joiner first second
    exact shape.unique target t joiner (joins target joiner first) (joins t joiner second)

/-- Changes of other fields. -/
theorem Shape.modify_flags {f : Ythread Ult Pool → Ythread Ult Pool} (shape : Shape dying s)
    (pool : (f (s.ult u)).pool = (s.ult u).pool) (state : (f (s.ult u)).state = (s.ult u).state)
    (link : (f (s.ult u)).link = (s.ult u).link)
    (callback : (f (s.ult u)).callback = (s.ult u).callback) : Shape dying (s.modify u f) := by
  apply shape.modify
  · rw [state, pool]
    exact fun p member => shape.units p u member
  · rw [callback, state]
    exact shape.callback u
  · rw [state]
    exact shape.not_joins
  · rw [state, link]
    exact fun joiner live notDying linked => ⟨live, notDying, linked⟩

theorem Shape.migrate (shape : Shape dying s) (notReady : ∀ pool, u ∉ s.units pool) :
    Shape dying (s.migrate u) := by
  apply shape.modify
  · exact fun pool member => absurd member (notReady pool)
  · exact shape.callback u
  · exact shape.not_joins
  · exact fun joiner live notDying linked => ⟨live, notDying, linked⟩

theorem Shape.setRunning {xstream : Option ℕ} (shape : Shape dying s)
    (live : (s.ult u).state ≠ .terminated) (absent : ∀ pool, u ∉ s.units pool)
    (free : ∀ target, ¬Joins dying s target u) : Shape dying (s.setRunning u xstream) := by
  apply shape.modify
  · exact fun pool member => absurd member (absent pool)
  · exact fun _ => rfl
  · exact fun _ => free
  · exact fun joiner _ notDying linked => ⟨live, notDying, linked⟩

theorem Shape.terminate (shape : Shape (some u) s) (absent : ∀ pool, u ∉ s.units pool)
    (idle : (s.ult u).callback = none) (notBlocked : (s.ult u).state ≠ .blocked) :
    Shape none (s.terminate u) := by
  have after : Shape (some u) (s.terminate u) := by
    apply shape.modify
    · exact fun pool member => absurd member (absent pool)
    · exact fun inCallback => absurd idle inCallback
    · exact fun _ => shape.not_joins notBlocked
    · exact fun joiner live _ _ => absurd rfl live
  have joins : ∀ target joiner, Joins none (s.terminate u) target joiner →
      Joins (some u) (s.terminate u) target joiner := by
    rintro target joiner ⟨live, -, linked⟩
    refine ⟨live, fun same => live ?_, linked⟩
    rw [Option.some.inj same]
    exact congrArg Ythread.state State.modify_self
  exact
    { units := after.units
      nodup := after.nodup
      callback := after.callback
      joiner := fun target joiner first => after.joiner target joiner (joins target joiner first)
      unique := fun target other joiner first second =>
        after.unique target other joiner (joins target joiner first) (joins other joiner second) }

/-- The end of a blocking callback, without the link of a join. -/
theorem Shape.block (shape : Shape dying s) (runs : (s.ult u).state = .running) :
    Shape dying (s.modify u fun y => { y with state := .blocked, callback := none }) := by
  have notReady : (s.ult u).state ≠ .ready := by simp [runs]
  apply shape.modify
  · exact fun pool member => absurd member (shape.notMem_units notReady pool)
  · exact fun inCallback => absurd rfl inCallback
  · exact fun notBlocked => absurd rfl notBlocked
  · exact fun joiner _ notDying linked => ⟨by simp [runs], notDying, linked⟩

/-- The link of a blocked joiner. -/
theorem Shape.setLink {target : Ult} (shape : Shape dying s) (blocked : (s.ult u).state = .blocked)
    (free : ∀ other, ¬Joins dying s other u) :
    Shape dying (s.modify target fun y => { y with link := some u }) := by
  have state : ∀ t, ((s.modify target fun y => { y with link := some u }).ult t).state =
      (s.ult t).state := by
    intro t
    rcases eq_or_ne t target with rfl | different
    · rw [State.modify_self]
    · rw [State.modify_of_ne different]
  have joins : ∀ t joiner,
      Joins dying (s.modify target fun y => { y with link := some u }) t joiner →
        t = target ∧ joiner = u ∨ t ≠ target ∧ Joins dying s t joiner := by
    rintro t joiner ⟨live, notDying, linked⟩
    rw [state] at live
    rcases eq_or_ne t target with rfl | different
    · rw [State.modify_self] at linked
      exact Or.inl ⟨rfl, (Option.some.inj linked).symm⟩
    · rw [State.modify_of_ne different] at linked
      exact Or.inr ⟨different, live, notDying, linked⟩
  constructor
  · intro pool t member
    rw [state]
    refine ⟨(shape.units pool t member).1, ?_⟩
    rcases eq_or_ne t target with rfl | different
    · rw [State.modify_self]
      exact (shape.units pool t member).2
    · rw [State.modify_of_ne different]
      exact (shape.units pool t member).2
  · exact shape.nodup
  · intro t inCallback
    rw [state]
    refine shape.callback t ?_
    rcases eq_or_ne t target with rfl | different
    · rwa [State.modify_self] at inCallback
    · rwa [State.modify_of_ne different] at inCallback
  · intro t joiner after
    rw [state]
    rcases joins t joiner after with ⟨-, rfl⟩ | ⟨-, before⟩
    · exact blocked
    · exact shape.joiner t joiner before
  · intro t other joiner first second
    rcases joins t joiner first with ⟨rfl, rfl⟩ | ⟨-, before⟩
    · rcases joins other joiner second with ⟨rfl, -⟩ | ⟨-, otherBefore⟩
      · rfl
      · exact absurd otherBefore (free other)
    · rcases joins other joiner second with ⟨-, rfl⟩ | ⟨-, otherBefore⟩
      · exact absurd before (free t)
      · exact shape.unique t other joiner before otherBefore

end Primitives

section Pools

variable [DecidableEq Pool] {dying : Option Ult} {s : State Ult Pool} {u : Ult}

theorem Shape.push {pool : Pool} (shape : Shape dying s) (ready : (s.ult u).state = .ready)
    (inPool : (s.ult u).pool = pool) (absent : u ∉ s.units pool) :
    Shape dying (s.push pool u) where
  units other t member := by
    rcases eq_or_ne other pool with rfl | different
    · rw [State.push_units_self, List.mem_append, List.mem_singleton] at member
      rcases member with before | rfl
      · exact shape.units other t before
      · exact ⟨ready, inPool⟩
    · rw [State.push_units_of_ne different] at member
      exact shape.units other t member
  nodup other := by
    rcases eq_or_ne other pool with rfl | different
    · rw [State.push_units_self]
      exact (List.nodup_append.mpr ⟨shape.nodup other, List.nodup_singleton u, fun t member v one =>
        ne_of_mem_of_not_mem member (List.mem_singleton.mp one ▸ absent)⟩)
    · rw [State.push_units_of_ne different]
      exact shape.nodup other
  callback := shape.callback
  joiner := shape.joiner
  unique := shape.unique

variable [DecidableEq Ult]

theorem mem_units_remove {pool other : Pool} {t : Ult}
    (member : t ∈ (s.remove pool u).units other) : t ∈ s.units other := by
  rcases eq_or_ne other pool with rfl | different
  · rw [State.remove_units_self] at member
    exact List.mem_of_mem_erase member
  · rwa [State.remove_units_of_ne different] at member

theorem Shape.remove (shape : Shape dying s) (pool : Pool) (u : Ult) :
    Shape dying (s.remove pool u) where
  units other t member := shape.units other t (mem_units_remove member)
  nodup other := by
    rcases eq_or_ne other pool with rfl | different
    · rw [State.remove_units_self]
      exact (shape.nodup other).erase u
    · rw [State.remove_units_of_ne different]
      exact shape.nodup other
  callback := shape.callback
  joiner := shape.joiner
  unique := shape.unique

/-- A unit removed from its pool is in no pool. -/
theorem Shape.notMem_remove (shape : Shape dying s) {pool : Pool} (member : u ∈ s.units pool)
    (other : Pool) : u ∉ (s.remove pool u).units other := by
  intro still
  have before := (shape.units other u (mem_units_remove still)).2
  rw [(shape.units pool u member).2] at before
  subst before
  rw [State.remove_units_self] at still
  exact (shape.nodup pool).not_mem_erase still

/-- **A ULT that nobody takes for blocked may be pushed to its pool.** -/
theorem Shape.addThread (shape : Shape dying s) (live : (s.ult u).state ≠ .terminated)
    (idle : (s.ult u).callback = none) (absent : ∀ pool, u ∉ s.units pool)
    (free : ∀ target, ¬Joins dying s target u) : Shape dying (s.addThread u) := by
  have ready : Shape dying (s.modify u fun y => { y with state := .ready }) := by
    apply shape.modify
    · exact fun pool member => absurd member (absent pool)
    · exact fun inCallback => absurd idle inCallback
    · exact fun _ => free
    · exact fun joiner _ notDying linked => ⟨live, notDying, linked⟩
  apply ready.push
  · rw [State.modify_self]
  · rw [State.modify_self]
  · exact absent _

end Pools

end ArgobotsReduction.Threads
