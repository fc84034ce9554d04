import ArgobotsReduction.Threads.UnitMap

/-!
# Runs of the map of units

Between two operations the hash table is the partial function that maps every unit to
the thread that it has been mapped to last, and it has exactly the units that are
alive.  A thread in a built-in pool has its built-in unit, and any other one has a unit
that is mapped to it.
-/

set_option autoImplicit false

namespace ArgobotsReduction.Threads.UnitMap

open Containers Parallel

universe u v

/-! ## Built-in units -/

theorem isBuiltin_iff (unit : Address) : isBuiltin unit = unit.getLsbD 0 := by
  rw [isBuiltin, builtinPoolBit]
  by_cases low : unit.getLsbD 0
  · have bit : (unit &&& 1#64).getLsbD 0 = true := by simp [low]
    rw [low, bne_iff_ne]
    intro zero
    rw [zero] at bit
    simp at bit
  · rw [Bool.eq_false_iff.mpr low]
    have zero : unit &&& 1#64 = 0#64 := by
      ext i hi
      rcases i with _ | i
      · simpa using low
      · simp
    rw [zero, bne_self_eq_false]

theorem isBuiltin_getBuiltinUnit (p : Address) : isBuiltin (getBuiltinUnit p) = true := by
  rw [isBuiltin_iff, getBuiltinUnit, builtinPoolBit]
  simp

theorem getThread_getBuiltinUnit {p : Address} (aligned : isBuiltin p = false) :
    getThreadFromBuiltinUnit (getBuiltinUnit p) = p := by
  rw [isBuiltin_iff] at aligned
  rw [getThreadFromBuiltinUnit, getBuiltinUnit, builtinPoolBit]
  ext i hi
  rw [BitVec.getElem_and, BitVec.getElem_or, BitVec.getElem_not, BitVec.getElem_one]
  rcases i with _ | i
  · simpa using aligned.symm
  · simp

variable {Pool : Type u} {Bucket : Type v} (hash : Address → Bucket) (builtin : Pool → Bool)

namespace State

/-- The hash table is the partial function of the units that are alive. -/
structure Table (s : State Pool Bucket) : Prop where
  distinct : SlotTable.Distinct unitNull s.entries
  found : ∀ unit, unit ≠ unitNull → SlotTable.lookup hash s.entries unit = s.mapped unit
  live : ∀ unit, s.mapped unit = none ↔ s.live unit = none
  user : ∀ unit, s.live unit ≠ none → isBuiltin unit = false ∧ unit ≠ unitNull

/-- A thread in a built-in pool has its built-in unit, and one in a user-defined pool has a unit of
that pool, which is mapped to it. -/
def Holds (s : State Pool Bucket) (p : Address) : Prop :=
  ∀ pool, (s.thread p).pool = some pool → isBuiltin p = false ∧
    if builtin pool then (s.thread p).unit = getBuiltinUnit p
    else s.mapped (s.thread p).unit = some p ∧ s.live (s.thread p).unit = some .pool

section Table

variable {hash} {s s' : State Pool Bucket} {unit p : Address}

theorem Table.congr (table : s.Table hash) (entries : s'.entries = s.entries)
    (mapped : s'.mapped = s.mapped) (live : s'.live = s.live) : s'.Table hash := by
  obtain ⟨distinct, found, alive, user⟩ := table
  rw [← entries] at distinct found
  rw [← mapped] at found alive
  rw [← live] at alive user
  exact ⟨distinct, found, alive, user⟩

/-- What is found of a unit. -/
theorem Table.unitGetThread (table : s.Table hash) (mapped : s.mapped unit = some p) :
    s.unitGetThread hash unit = some p := by
  have alive : s.live unit ≠ none := fun dead => by simp [(table.live unit).mpr dead] at mapped
  obtain ⟨user, nonnull⟩ := table.user unit alive
  rw [State.unitGetThread, unitGetThreadFromUserDefinedUnit, user, if_neg Bool.false_ne_true,
    if_neg Bool.false_ne_true]
  exact (table.found unit nonnull).trans mapped

variable [DecidableEq Bucket]

/-- The table after a unit has been created and mapped, or unmapped and freed. -/
theorem Table.change (table : s.Table hash) (user : isBuiltin unit = false)
    (nonnull : unit ≠ unitNull) {slots : List (Address × Address)} {thread : Option Address}
    {owner : Option Owner} (same : thread = none ↔ owner = none)
    (distinct : Slots.Distinct unitNull slots)
    (found : ∀ other, other ≠ unitNull → Slots.find other slots =
      if unit = other then thread else Slots.find other (s.entries (hash unit)))
    (entries : s'.entries = Function.update s.entries (hash unit) slots)
    (mapped : s'.mapped = Function.update s.mapped unit thread)
    (live : s'.live = Function.update s.live unit owner) : s'.Table hash where
  distinct := entries ▸ table.distinct.update distinct
  found other nonnull := by
    rw [entries, SlotTable.lookup_update hash (found other nonnull), table.found other nonnull,
      mapped, Function.update_apply]
    exact if_congr eq_comm rfl rfl
  live other := by
    rw [mapped, live]
    rcases eq_or_ne other unit with rfl | differ
    · rw [Function.update_self, Function.update_self, same]
    · rw [Function.update_of_ne differ, Function.update_of_ne differ, table.live]
  user other alive := by
    rw [live] at alive
    rcases eq_or_ne other unit with rfl | differ
    · exact ⟨user, nonnull⟩
    · rw [Function.update_of_ne differ] at alive
      exact table.user other alive

/-- **A unit that is not alive is created and mapped**, or everything is as before. -/
theorem Table.newUnit (table : s.Table hash) (owner : Owner) (p : Address) {outside : Outside}
    (fresh : Operation.Fresh s outside.unit) :
    (∃ s', s.newUnit hash owner p outside = some (s', .success) ∧ s'.Table hash ∧
      isBuiltin outside.unit = false ∧ s.mapped outside.unit = none ∧
        s'.mapped = Function.update s.mapped outside.unit (some p) ∧
          s'.live = Function.update s.live outside.unit (some owner) ∧ s'.thread = s.thread) ∨
    ∃ code, code ≠ .success ∧ s.newUnit hash owner p outside = some (s, code) := by
  rw [State.newUnit]
  split
  next => exact .inr ⟨.other, nofun, rfl⟩
  next nonnull =>
    obtain ⟨user, dead⟩ := fresh.resolve_left nonnull
    have unmapped := (table.live _).mpr dead
    have absent : Slots.find outside.unit (s.entries (hash outside.unit)) = none :=
      (table.found _ nonnull).trans unmapped
    rw [unitMapThread, if_neg (Bool.eq_false_iff.mp user)]
    cases reused : Slots.reuse unitNull outside.unit p (s.entries (hash outside.unit)) with
    | some slots =>
        simp only [createUnit, reused]
        exact .inl ⟨_, rfl, table.change user nonnull (by simp)
          ((table.distinct _).reuse absent reused)
          (fun other nonnull => Slots.find_reuse reused absent nonnull) rfl rfl rfl, user, unmapped,
          rfl, rfl, rfl⟩
    | none =>
        simp only [createUnit, reused]
        cases outside.allocates with
        | true =>
            exact .inl ⟨_, rfl, table.change user nonnull (by simp)
              ((table.distinct _).cons absent) (fun other _ => rfl) rfl rfl rfl, user, unmapped,
              rfl, rfl, rfl⟩
        | false =>
            refine .inr ⟨.mem, nofun, ?_⟩
            simp only [Bool.false_eq_true, if_false, Option.map_some, freeUnit,
              Function.update_idem]
            rw [← dead, Function.update_eq_self]
            rfl

/-- **A unit that is alive is unmapped and freed.** -/
theorem Table.oldUnit (table : s.Table hash) (alive : s.live unit ≠ none) :
    ∃ s', s.oldUnit hash unit = some s' ∧ s'.Table hash ∧
      s'.mapped = Function.update s.mapped unit none ∧
        s'.live = Function.update s.live unit none ∧ s'.thread = s.thread := by
  obtain ⟨user, nonnull⟩ := table.user unit alive
  have present : (Slots.find unit (s.entries (hash unit))).isSome := by
    rw [Option.isSome_iff_ne_none]
    exact fun absent => alive ((table.live unit).mp ((table.found unit nonnull).symm.trans absent))
  obtain ⟨slots, cleared⟩ :
      ∃ slots, Slots.clear unitNull unit (s.entries (hash unit)) = some slots :=
    Slots.exists_clear present
  refine ⟨((s.setEntry hash unit slots).setMapped unit none).freeUnit unit, ?_,
    table.change user nonnull (iff_of_true rfl rfl) ((table.distinct _).clear cleared)
      (fun other otherNonnull =>
        Slots.find_clear (table.distinct _) cleared nonnull otherNonnull) rfl rfl rfl,
    rfl, rfl, rfl⟩
  rw [State.oldUnit, unitUnmapThread, if_neg (Bool.eq_false_iff.mp user), cleared, Option.map_some,
    Option.map_some]

end Table

section Threads

variable {hash builtin} {s s' : State Pool Bucket} {unit p q : Address} {pool : Pool}

/-- What another thread keeps. -/
theorem Holds.frame (holds : s.Holds builtin q) (thread : s'.thread q = s.thread q)
    (kept : ∀ unit, s.mapped unit = some q → s.live unit = some .pool →
      s'.mapped unit = some q ∧ s'.live unit = some .pool) : s'.Holds builtin q := by
  intro pool here
  rw [thread] at here ⊢
  obtain ⟨aligned, own⟩ := holds pool here
  refine ⟨aligned, ?_⟩
  split
  next isBuiltin => rwa [if_pos isBuiltin] at own
  next user =>
    rw [if_neg user] at own
    exact kept _ own.1 own.2

/-- The unit of a thread tells whether its pool is built in. -/
theorem Holds.isBuiltin_iff (table : s.Table hash) (holds : s.Holds builtin p)
    (here : (s.thread p).pool = some pool) :
    isBuiltin (s.thread p).unit = builtin pool := by
  obtain ⟨-, own⟩ := holds pool here
  cases isBuiltinPool : builtin pool with
  | true =>
      rw [isBuiltinPool, if_pos rfl] at own
      rw [own, isBuiltin_getBuiltinUnit]
  | false =>
      rw [isBuiltinPool, if_neg Bool.false_ne_true] at own
      exact (table.user _ (by simp [own.2])).1

end Threads

/-- What holds between two operations. -/
structure Right (s : State Pool Bucket) : Prop where
  table : s.Table hash
  holds : ∀ p, s.Holds builtin p

/-- A thread has gone to a pool. -/
structure Moved (s s' : State Pool Bucket) (p : Address) (pool : Pool) : Prop where
  right : s'.Right hash builtin
  pool : (s'.thread p).pool = some pool
  others : ∀ q, q ≠ p → s'.thread q = s.thread q
  freed : (s.thread p).pool.isSome → isBuiltin (s.thread p).unit = false →
    (s'.thread p).unit ≠ (s.thread p).unit →
      s'.mapped (s.thread p).unit = none ∧ s'.live (s.thread p).unit = none

section Moves

variable {hash builtin} {s s₁ s₂ s' : State Pool Bucket} {unit p q : Address}
  {pool : Pool} {outside : Outside}

/-- A thread whose pool and unit have been written. -/
theorem Right.write (right : s.Right hash builtin) (table : s₁.Table hash)
    (same : s₁.thread = s.thread) (thread : Thread Pool)
    (kept : ∀ q, q ≠ p → ∀ unit, s.mapped unit = some q → s.live unit = some .pool →
      s₁.mapped unit = some q ∧ s₁.live unit = some .pool)
    (own : (s₁.setThread p thread).Holds builtin p) :
    (s₁.setThread p thread).Right hash builtin ∧
      ∀ q, q ≠ p → (s₁.setThread p thread).thread q = s.thread q := by
  have others : ∀ q, q ≠ p → (s₁.setThread p thread).thread q = s.thread q := by
    intro q other
    rw [← same]
    exact Function.update_of_ne other _ _
  refine ⟨⟨table.congr rfl rfl rfl, fun q => ?_⟩, others⟩
  rcases eq_or_ne q p with rfl | other
  · exact own
  · exact (right.holds q).frame (others q other) (kept q other)

/-- The thread when it has gone to a built-in pool. -/
def builtinThread (p : Address) (pool : Pool) : Thread Pool where
  prev := unitNull
  next := unitNull
  isInPool := false
  unit := getBuiltinUnit p
  pool := some pool

/-- **A thread goes to a built-in pool.** -/
theorem Right.toBuiltin (right : s.Right hash builtin) (table : s₁.Table hash)
    (same : s₁.thread = s.thread) (aligned : isBuiltin p = false)
    (isBuiltinPool : builtin pool = true)
    (kept : ∀ q, q ≠ p → ∀ unit, s.mapped unit = some q → s.live unit = some .pool →
      s₁.mapped unit = some q ∧ s₁.live unit = some .pool)
    (freed : (s.thread p).pool.isSome → isBuiltin (s.thread p).unit = false →
      s₁.mapped (s.thread p).unit = none ∧ s₁.live (s.thread p).unit = none) :
    ∃ t, s₁.initBuiltin p = some t ∧ Moved hash builtin s (t.setPool p pool) p pool := by
  refine ⟨_, if_neg (Bool.eq_false_iff.mp aligned), ?_⟩
  have written : (s₁.setThread p { s₁.thread p with
      prev := unitNull
      next := unitNull
      isInPool := false
      unit := getBuiltinUnit p }).setPool p pool = s₁.setThread p (builtinThread p pool) := by
    simp [setPool, setThread, builtinThread]
  rw [written]
  have here : (s₁.setThread p (builtinThread p pool)).thread p = builtinThread p pool :=
    Function.update_self _ _ _
  have own : (s₁.setThread p (builtinThread p pool)).Holds builtin p := by
    intro other inPool
    rw [here] at inPool ⊢
    obtain rfl := Option.some.inj inPool
    rw [if_pos isBuiltinPool]
    exact ⟨aligned, rfl⟩
  obtain ⟨after, others⟩ := right.write table same _ kept own
  exact ⟨after, congrArg Thread.pool here, others, fun had user _ => freed had user⟩

/-- A thread goes from one built-in pool to another one. -/
theorem Right.stayBuiltin (right : s.Right hash builtin) (aligned : isBuiltin p = false)
    (own : (s.thread p).unit = getBuiltinUnit p) (isBuiltinPool : builtin pool = true) :
    Moved hash builtin s (s.setPool p pool) p pool := by
  have here : (s.setPool p pool).thread p = { s.thread p with pool := some pool } :=
    Function.update_self _ _ _
  obtain ⟨after, others⟩ := right.write right.table rfl { s.thread p with pool := some pool }
    (fun _ _ _ isMapped isLive => ⟨isMapped, isLive⟩) (fun other inPool => by
      change ((s.setPool p pool).thread p).pool = _ at inPool
      rw [here] at inPool
      obtain rfl := Option.some.inj inPool
      rw [if_pos isBuiltinPool]
      exact ⟨aligned, (congrArg Thread.unit here).trans own⟩)
  refine ⟨after, congrArg Thread.pool here, others, fun _ _ changed => ?_⟩
  exact absurd (congrArg Thread.unit here) changed

/-- **A thread goes to a user-defined pool** with a new unit. -/
theorem Right.toUser (right : s.Right hash builtin) (table : s₁.Table hash)
    (same : s₁.thread = s.thread) (aligned : isBuiltin p = false)
    (notBuiltinPool : builtin pool = false)
    (mapped : s₁.mapped unit = some p) (live : s₁.live unit = some .pool)
    (kept : ∀ q, q ≠ p → ∀ unit, s.mapped unit = some q → s.live unit = some .pool →
      s₁.mapped unit = some q ∧ s₁.live unit = some .pool)
    (freed : (s.thread p).pool.isSome → isBuiltin (s.thread p).unit = false →
      s₁.mapped (s.thread p).unit = none ∧ s₁.live (s.thread p).unit = none) :
    Moved hash builtin s ((s₁.setUnit p unit).setPool p pool) p pool := by
  have written : (s₁.setUnit p unit).setPool p pool =
      s₁.setThread p { s₁.thread p with unit := unit, pool := some pool } := by
    simp [setPool, setUnit, setThread]
  rw [written]
  have here : (s₁.setThread p { s₁.thread p with unit := unit, pool := some pool }).thread p =
      { s₁.thread p with unit := unit, pool := some pool } := Function.update_self _ _ _
  have own : (s₁.setThread p
      { s₁.thread p with unit := unit, pool := some pool }).Holds builtin p := by
    intro other inPool
    rw [here] at inPool ⊢
    obtain rfl := Option.some.inj inPool
    rw [if_neg (Bool.eq_false_iff.mp notBuiltinPool)]
    exact ⟨aligned, mapped, live⟩
  obtain ⟨after, others⟩ := right.write table same _ kept own
  exact ⟨after, congrArg Thread.pool here, others, fun had user _ => freed had user⟩

/-- The threads keep their units when a unit is mapped that has not been. -/
theorem kept_of_map (unmapped : s.mapped unit = none)
    (mapped : s₁.mapped = Function.update s.mapped unit (some p)) {owner : Owner}
    (live : s₁.live = Function.update s.live unit (some owner)) :
    ∀ q other, s.mapped other = some q → s.live other = some .pool →
      s₁.mapped other = some q ∧ s₁.live other = some .pool := by
  intro q other isMapped isLive
  have differ : other ≠ unit := by
    rintro rfl
    rw [unmapped] at isMapped
    cases isMapped
  rw [mapped, live, Function.update_of_ne differ, Function.update_of_ne differ]
  exact ⟨isMapped, isLive⟩

/-- The other threads keep their units when the unit of a thread is unmapped. -/
theorem kept_of_unmap (own : s.mapped unit = some p)
    (mapped : s₁.mapped = Function.update s.mapped unit none)
    (live : s₁.live = Function.update s.live unit none) :
    ∀ q, q ≠ p → ∀ other, s.mapped other = some q → s.live other = some .pool →
      s₁.mapped other = some q ∧ s₁.live other = some .pool := by
  intro q differs other isMapped isLive
  have differ : other ≠ unit := by
    rintro rfl
    exact differs (Option.some.inj (isMapped.symm.trans own))
  rw [mapped, live, Function.update_of_ne differ, Function.update_of_ne differ]
  exact ⟨isMapped, isLive⟩

variable [DecidableEq Bucket]

/-- **A thread gets its first pool.** -/
theorem Right.threadInitPool (right : s.Right hash builtin) (aligned : isBuiltin p = false)
    (new : (s.thread p).pool.isNone) (fresh : Operation.Fresh s outside.unit) :
    (∃ s', s.threadInitPool hash builtin p pool outside = some (s', .success) ∧
      Moved hash builtin s s' p pool) ∨
    ∃ code, code ≠ .success ∧ s.threadInitPool hash builtin p pool outside = some (s, code) := by
  have first : ¬(s.thread p).pool.isSome := by simpa using new
  rw [State.threadInitPool]
  cases isBuiltinPool : builtin pool with
  | true =>
      obtain ⟨t, initialized, moved⟩ := right.toBuiltin right.table rfl aligned isBuiltinPool
        (fun _ _ _ isMapped isLive => ⟨isMapped, isLive⟩) fun had => absurd had first
      exact .inl ⟨_, by rw [if_pos rfl, initialized, Option.map_some], moved⟩
  | false =>
      rw [if_neg Bool.false_ne_true]
      rcases right.table.newUnit .pool p fresh with
        ⟨s₁, created, table, -, unmapped, mapped, live, same⟩ | ⟨code, failed, created⟩
      · refine .inl ⟨(s₁.setUnit p outside.unit).setPool p pool, by rw [created]; rfl,
          right.toUser table same aligned isBuiltinPool ?_ ?_
            (fun q _ => State.kept_of_map unmapped mapped live q) fun had => absurd had first⟩
        · rw [mapped, Function.update_self]
        · rw [live, Function.update_self]
      · exact .inr ⟨code, failed, by rw [created]; exact congrArg some (if_neg failed)⟩

/-- **A thread changes its pool.** -/
theorem Right.threadSetAssociatedPool [DecidableEq Pool] (right : s.Right hash builtin)
    (had : (s.thread p).pool.isSome) (fresh : Operation.Fresh s outside.unit) :
    (∃ s', s.threadSetAssociatedPool hash builtin p pool outside = some (s', .success) ∧
      Moved hash builtin s s' p pool) ∨
    ∃ code, code ≠ .success ∧
      s.threadSetAssociatedPool hash builtin p pool outside = some (s, code) := by
  obtain ⟨old, inOld⟩ := Option.isSome_iff_exists.mp had
  have unitOf := (right.holds p).isBuiltin_iff right.table inOld
  obtain ⟨aligned, own⟩ := right.holds p old inOld
  rw [State.threadSetAssociatedPool]
  cases isBuiltinOld : builtin old with
  | true =>
      rw [isBuiltinOld] at unitOf
      have notUser : ¬isBuiltin (s.thread p).unit = false := by simp [unitOf]
      rw [isBuiltinOld, if_pos rfl] at own
      cases isBuiltinPool : builtin pool with
      | true =>
          simp only [unitOf, and_self, if_true]
          exact .inl ⟨_, rfl, right.stayBuiltin aligned own isBuiltinPool⟩
      | false =>
          simp only [unitOf, Bool.false_eq_true, and_false, if_false, if_true]
          rcases right.table.newUnit .pool p fresh with
            ⟨s₁, created, table, -, unmapped, mapped, live, same⟩ | ⟨code, failed, created⟩
          · refine .inl ⟨(s₁.setUnit p outside.unit).setPool p pool, by rw [created]; rfl,
              right.toUser table same aligned isBuiltinPool ?_ ?_
                (fun q _ => State.kept_of_map unmapped mapped live q)
                fun _ user => absurd user notUser⟩
            · rw [mapped, Function.update_self]
            · rw [live, Function.update_self]
          · exact .inr ⟨code, failed, by rw [created]; exact congrArg some (if_neg failed)⟩
  | false =>
      rw [isBuiltinOld] at unitOf
      rw [isBuiltinOld, if_neg Bool.false_ne_true] at own
      have alive : s.live (s.thread p).unit ≠ none := by simp [own.2]
      cases isBuiltinPool : builtin pool with
      | true =>
          simp only [unitOf, Bool.false_eq_true, false_and, if_false, if_true]
          obtain ⟨s₁, freed, table, mapped, live, same⟩ := right.table.oldUnit alive
          obtain ⟨t, initialized, moved⟩ := right.toBuiltin table same aligned
            isBuiltinPool (kept_of_unmap own.1 mapped live) fun _ _ => by simp [mapped, live]
          exact .inl ⟨_, by rw [freed, Option.bind_some, initialized, Option.map_some], moved⟩
      | false =>
          simp only [unitOf, Bool.false_eq_true, false_and, if_false]
          split
          next here =>
            exact .inl ⟨s, rfl, right, here, fun _ _ => rfl, fun _ _ other => absurd rfl other⟩
          next elsewhere =>
            rcases right.table.newUnit .pool p fresh with
              ⟨s₁, created, table, -, unmapped, mapped, live, same⟩ | ⟨code, failed, created⟩
            · have differ : outside.unit ≠ (s.thread p).unit := by
                intro same
                rw [same, own.1] at unmapped
                cases unmapped
              have kept := kept_of_map unmapped mapped live
              have ownMapped : s₁.mapped (s.thread p).unit = some p := by
                rw [mapped, Function.update_of_ne differ.symm, own.1]
              have ownLive : s₁.live (s.thread p).unit ≠ none := by
                rw [live, Function.update_of_ne differ.symm, own.2]
                nofun
              obtain ⟨s₂, freed, table₂, mapped₂, live₂, same₂⟩ := table.oldUnit ownLive
              have kept₂ := kept_of_unmap ownMapped mapped₂ live₂
              refine .inl ⟨(s₂.setUnit p outside.unit).setPool p pool, ?_,
                right.toUser table₂ (same₂.trans same) aligned isBuiltinPool ?_ ?_
                  (fun q other unit isMapped isLive =>
                    kept₂ q other unit (kept q unit isMapped isLive).1
                      (kept q unit isMapped isLive).2)
                  fun _ _ => by simp [mapped₂, live₂]⟩
              · rw [created, Option.bind_some]
                simp only [if_true, freed, Option.map_some]
              · rw [mapped₂, Function.update_of_ne differ, mapped, Function.update_self]
              · rw [live₂, Function.update_of_ne differ, live, Function.update_self]
            · exact .inr ⟨code, failed, by rw [created]; exact if_neg failed⟩

/-- `ABTI_unit_set_associated_pool` is `ABTI_thread_set_associated_pool` of the thread of the
unit. -/
theorem Right.unitSetAssociatedPool [DecidableEq Pool] (right : s.Right hash builtin)
    (had : (s.thread p).pool.isSome) :
    s.unitSetAssociatedPool hash builtin (s.thread p).unit pool outside =
      (s.threadSetAssociatedPool hash builtin p pool outside).map
        (Prod.map id (Operation.result p)) := by
  obtain ⟨old, inOld⟩ := Option.isSome_iff_exists.mp had
  have unitOf := (right.holds p).isBuiltin_iff right.table inOld
  obtain ⟨aligned, own⟩ := right.holds p old inOld
  rw [State.unitSetAssociatedPool, State.threadSetAssociatedPool]
  cases isBuiltinOld : builtin old with
  | true =>
      rw [isBuiltinOld] at unitOf
      rw [isBuiltinOld, if_pos rfl] at own
      have thread : getThreadFromBuiltinUnit (s.thread p).unit = p :=
        own ▸ getThread_getBuiltinUnit aligned
      cases builtin pool with
      | true =>
          simp only [unitOf, and_self, if_true, thread, Option.map_some]
          rfl
      | false =>
          simp only [unitOf, Bool.false_eq_true, and_false, if_false, if_true, thread,
            Option.map_map]
          refine congrArg (Option.map · _) ?_
          funext ⟨t, ret⟩
          cases ret <;> rfl
  | false =>
      rw [isBuiltinOld] at unitOf
      rw [isBuiltinOld, if_neg Bool.false_ne_true] at own
      have found : s.unitGetThreadFromUserDefinedUnit hash (s.thread p).unit = some p := by
        have whole := right.table.unitGetThread own.1
        rwa [State.unitGetThread, unitOf, if_neg Bool.false_ne_true] at whole
      simp only [unitOf, Bool.false_eq_true, false_and, if_false, found, Option.bind_some]
      cases builtin pool with
      | true =>
          simp only [if_true, Option.map_map]
          rfl
      | false =>
          simp only [Bool.false_eq_true, if_false]
          split
          next => rfl
          next =>
            rw [Option.map_bind]
            refine congrArg (Option.bind _) ?_
            funext ⟨t, ret⟩
            cases ret with
            | success =>
                simp only [if_true, Function.comp, Option.map_map]
                rfl
            | other | mem => rfl

/-- **A thread loses its pool.** -/
theorem Right.threadUnsetAssociatedPool (right : s.Right hash builtin)
    (had : (s.thread p).pool.isSome) :
    ∃ s', s.threadUnsetAssociatedPool hash p = some s' ∧ s'.Right hash builtin ∧
      (s'.thread p).pool = none ∧ (∀ q, q ≠ p → s'.thread q = s.thread q) ∧
        (isBuiltin (s.thread p).unit = false →
          s'.mapped (s.thread p).unit = none ∧ s'.live (s.thread p).unit = none) := by
  obtain ⟨old, inOld⟩ := Option.isSome_iff_exists.mp had
  have unitOf := (right.holds p).isBuiltin_iff right.table inOld
  obtain ⟨aligned, own⟩ := right.holds p old inOld
  have outside : ∀ t : State Pool Bucket,
      (t.setThread p { t.thread p with unit := unitNull, pool := none }).Holds builtin p := by
    intro t other inPool
    have here : ((t.setThread p { t.thread p with unit := unitNull, pool := none }).thread p).pool =
        none := congrArg Thread.pool (Function.update_self p _ t.thread)
    rw [here] at inPool
    cases inPool
  rw [State.threadUnsetAssociatedPool]
  cases isBuiltinOld : builtin old with
  | true =>
      rw [isBuiltinOld] at unitOf
      obtain ⟨after, others⟩ := right.write right.table rfl
        { s.thread p with unit := unitNull, pool := none }
        (fun _ _ _ isMapped isLive => ⟨isMapped, isLive⟩) (outside s)
      refine ⟨_, by rw [unitOf, if_pos rfl, Option.map_some], after,
        congrArg Thread.pool (Function.update_self p _ s.thread), others, fun user => ?_⟩
      rw [unitOf] at user
      cases user
  | false =>
      rw [isBuiltinOld] at unitOf
      rw [isBuiltinOld, if_neg Bool.false_ne_true] at own
      have alive : s.live (s.thread p).unit ≠ none := by simp [own.2]
      obtain ⟨s₁, freed, table, mapped, live, same⟩ := right.table.oldUnit alive
      obtain ⟨after, others⟩ := right.write table same
        { s₁.thread p with unit := unitNull, pool := none } (kept_of_unmap own.1 mapped live)
        (outside s₁)
      refine ⟨_, by rw [unitOf, if_neg Bool.false_ne_true, freed, Option.map_some], after,
        congrArg Thread.pool (Function.update_self p _ s₁.thread), others, fun _ => ?_⟩
      constructor
      · exact (congrFun mapped _).trans (Function.update_self _ _ _)
      · exact (congrFun live _).trans (Function.update_self _ _ _)

end Moves

end State

/-! ## Operations -/

section Operations

variable {hash builtin} {s : State Pool Bucket}

/-- What an operation does.  One that fails leaves everything as it was. -/
def Outcome (hash : Address → Bucket) (builtin : Pool → Bool) (s s' : State Pool Bucket) :
    Operation Pool → Except Code Address → Prop
  | .map p outside, result =>
      (result = .ok p ∧ s'.mapped = Function.update s.mapped outside.unit (some p)) ∨
        ∃ code, result = .error code ∧ s' = s
  | .unmap unit, _ => s'.mapped = Function.update s.mapped unit none ∧ s'.thread = s.thread
  | .lookup unit, result => s' = s ∧ ∃ p, s.mapped unit = some p ∧ result = .ok p
  | .initPool p pool _, result | .setPool p pool _, result | .setUnitPool p pool _, result =>
      (result = .ok p ∧ s.Moved hash builtin s' p pool) ∨ ∃ code, result = .error code ∧ s' = s
  | .unsetPool p, _ =>
      (s'.thread p).pool = none ∧ (∀ q, q ≠ p → s'.thread q = s.thread q) ∧
        (isBuiltin (s.thread p).unit = false →
          s'.mapped (s.thread p).unit = none ∧ s'.live (s.thread p).unit = none)

/-- The result of a change of the pool of a thread. -/
theorem outcome_of_moved {p : Address} {pool : Pool} (right : s.Right hash builtin)
    {result : Option (State Pool Bucket × Code)}
    (spec : (∃ s', result = some (s', .success) ∧ s.Moved hash builtin s' p pool) ∨
      ∃ code, code ≠ .success ∧ result = some (s, code)) :
    ∃ s' ret, result.map (Prod.map id (Operation.result p)) = some (s', ret) ∧
      s'.Right hash builtin ∧ ((ret = .ok p ∧ s.Moved hash builtin s' p pool) ∨
        ∃ code, ret = .error code ∧ s' = s) := by
  rcases spec with ⟨s', rfl, moved⟩ | ⟨code, failed, rfl⟩
  · exact ⟨s', .ok p, rfl, moved.right, .inl ⟨rfl, moved⟩⟩
  · refine ⟨s, .error code, ?_, right, .inr ⟨code, rfl, rfl⟩⟩
    rw [Option.map_some, Prod.map_apply, Operation.result, if_neg failed]
    rfl

/-- **Every operation returns, and keeps what holds.** -/
theorem State.Right.perform [DecidableEq Bucket] [DecidableEq Pool]
    (right : s.Right hash builtin) {operation : Operation Pool}
    (valid : operation.Valid s) :
    ∃ s' result, operation.perform hash builtin s = some (s', result) ∧ s'.Right hash builtin ∧
      Outcome hash builtin s s' operation result := by
  cases operation with
  | map p outside =>
      rw [Operation.perform]
      rcases right.table.newUnit .caller p valid with
        ⟨s₁, created, table, -, unmapped, mapped, live, same⟩ | ⟨code, failed, created⟩
      · refine ⟨s₁, .ok p, by rw [created]; rfl, ⟨table, fun q => ?_⟩, .inl ⟨rfl, mapped⟩⟩
        exact (right.holds q).frame (by rw [same]) (State.kept_of_map unmapped mapped live q)
      · refine ⟨s, .error code, ?_, right, .inr ⟨code, rfl, rfl⟩⟩
        rw [created, Option.map_some, Prod.map_apply, Operation.result, if_neg failed]
        rfl
  | unmap unit =>
      have owned : s.live unit = some .caller := valid
      have alive : s.live unit ≠ none := by simp [owned]
      obtain ⟨s₁, freed, table, mapped, live, same⟩ := right.table.oldUnit alive
      refine ⟨s₁, .ok unitNull, by rw [Operation.perform, freed, Option.map_some],
        ⟨table, fun q => (right.holds q).frame (by rw [same]) fun other isMapped isLive => ?_⟩,
        mapped, same⟩
      have differ : other ≠ unit := by
        rintro rfl
        rw [owned] at isLive
        cases isLive
      rw [mapped, live, Function.update_of_ne differ, Function.update_of_ne differ]
      exact ⟨isMapped, isLive⟩
  | lookup unit =>
      obtain ⟨p, mapped⟩ := Option.isSome_iff_exists.mp valid
      refine ⟨s, .ok p, ?_, right, rfl, p, mapped, rfl⟩
      rw [Operation.perform, right.table.unitGetThread mapped, Option.map_some]
  | initPool p pool outside =>
      obtain ⟨aligned, new, fresh⟩ := valid
      exact outcome_of_moved right (right.threadInitPool aligned new fresh)
  | setPool p pool outside =>
      obtain ⟨had, fresh⟩ := valid
      exact outcome_of_moved right (right.threadSetAssociatedPool had fresh)
  | setUnitPool p pool outside =>
      obtain ⟨had, fresh⟩ := valid
      rw [Operation.perform, right.unitSetAssociatedPool had]
      exact outcome_of_moved right (right.threadSetAssociatedPool had fresh)
  | unsetPool p =>
      obtain ⟨s', unset, after, outcome⟩ := right.threadUnsetAssociatedPool valid
      exact ⟨s', .ok p, by rw [Operation.perform, unset, Option.map_some], after, outcome⟩

end Operations

/-! ## Runs -/

end ArgobotsReduction.Threads.UnitMap
