import Mathlib.Tactic.Ring
import ArgobotsReduction.Scheduling.SchedCreate

/-!
# The creation of a scheduler is atomic in its pools

The loop that makes pools owes those of the NULL entries (`Filled`), and every error path frees
what is owed, in `sched_create` or around it.  The scheduler is counted in all pools before the
initialization, and is taken out of those that are not freed when that fails.  Around
`sched_create` there are no NULL entries left, so it only takes the counts back, and the pools
are freed outside.

So a failure frees the pools that were made, once each, and leaves the others as they were; and a
success counts the scheduler in every pool as often as the pool is among its pools
(`sched_creation_atomic`).  The memory blocks of a failed creation are freed as well
(`schedCreateBasic_memory`).
-/

set_option autoImplicit false

namespace ArgobotsReduction.Scheduling.SchedCreate

open Containers Objects

variable {succeeds : ℕ → Bool} {w w' : World} {entries done : List Entry}
  {pools : List (Option ℕ)}

/-- The pools of the NULL entries -/
def created : List Entry → Multiset ℕ
  | [] => 0
  | (none, pool) :: rest => pool ::ₘ created rest
  | (some _, _) :: rest => created rest

/-- The pools of the other entries -/
def kept : List Entry → List ℕ
  | [] => []
  | (none, _) :: rest => kept rest
  | (some _, pool) :: rest => pool :: kept rest

theorem created_append (first second : List Entry) :
    created (first ++ second) = created first + created second := by
  induction first with
  | nil => rw [List.nil_append, created, zero_add]
  | cons entry rest ih =>
      obtain ⟨given, pool⟩ := entry
      cases given with
      | none => rw [List.cons_append, created, created, ih, Multiset.cons_add]
      | some pool => exact ih

/-- A pool that was not made here is kept as often as it is used. -/
theorem count_kept {pool : ℕ} (old : pool ∉ created entries) :
    (kept entries).count pool = (entries.map Prod.snd).count pool := by
  induction entries with
  | nil => rfl
  | cons entry rest ih =>
      obtain ⟨given, used⟩ := entry
      cases given with
      | none =>
          rw [created, Multiset.mem_cons, not_or] at old
          rw [kept, List.map_cons, List.count_cons_of_ne (Ne.symm old.1), ih old.2]
      | some given => rw [kept, List.map_cons, List.count_cons, List.count_cons, ih old]

/-! ## The loops -/

theorem World.addScheds_numScheds (w : World) (used pool : ℕ) (change : ℤ) :
    (w.addScheds used change).numScheds pool =
      w.numScheds pool + if used = pool then change else 0 := by
  rcases eq_or_ne used pool with rfl | other
  · rw [if_pos rfl]
    exact Function.update_self ..
  · rw [if_neg other, add_zero]
    exact Function.update_of_ne (Ne.symm other) ..

theorem freeCreated_spec {before : Objects} {owed : Multiset ℕ}
    (owes : Owes before w.pools (created entries + owed)) :
    Owes before (freeCreated w entries).pools owed ∧
      (freeCreated w entries).numScheds = w.numScheds := by
  induction entries generalizing w with
  | nil => exact ⟨by simpa [created, freeCreated] using owes, rfl⟩
  | cons entry rest ih =>
      obtain ⟨given, pool⟩ := entry
      cases given with
      | none =>
          rw [created, Multiset.cons_add] at owes
          exact ih (w := w.freePool pool) owes.free
      | some given => exact ih owes

theorem takeBack_spec {before : Objects} {owed : Multiset ℕ}
    (owes : Owes before w.pools (created entries + owed)) :
    Owes before (takeBack w entries).pools owed ∧
      ∀ pool, (takeBack w entries).numScheds pool =
        w.numScheds pool - (kept entries).count pool := by
  induction entries generalizing w with
  | nil => exact ⟨by simpa [created, takeBack] using owes, by simp [kept, takeBack]⟩
  | cons entry rest ih =>
      obtain ⟨given, used⟩ := entry
      cases given with
      | none =>
          rw [created, Multiset.cons_add] at owes
          exact ih (w := w.freePool used) owes.free
      | some given =>
          obtain ⟨balanced, counts⟩ := ih (w := w.release used) owes
          refine ⟨balanced, fun pool => ?_⟩
          rw [takeBack, counts pool, World.release, World.addScheds_numScheds, kept]
          rcases eq_or_ne used pool with rfl | other
          · rw [if_pos rfl, List.count_cons_self, Nat.cast_add, Nat.cast_one]
            ring
          · rw [if_neg other, List.count_cons_of_ne other, add_zero]

theorem retainAll_spec :
    (retainAll w entries).pools = w.pools ∧
      ∀ pool, (retainAll w entries).numScheds pool =
        w.numScheds pool + (entries.map Prod.snd).count pool := by
  induction entries generalizing w with
  | nil => exact ⟨rfl, by simp [retainAll]⟩
  | cons entry rest ih =>
      obtain ⟨given, used⟩ := entry
      obtain ⟨same, counts⟩ := ih (w := w.retain used)
      refine ⟨same, fun pool => ?_⟩
      rw [retainAll, counts pool, World.retain, World.addScheds_numScheds, List.map_cons]
      rcases eq_or_ne used pool with rfl | other
      · rw [if_pos rfl, List.count_cons_self, Nat.cast_add, Nat.cast_one]
        ring
      · rw [if_neg other, List.count_cons_of_ne other, add_zero]

/-- The two worlds have the same pools. -/
def SamePools (w w' : World) : Prop := w'.pools = w.pools ∧ w'.numScheds = w.numScheds

theorem SamePools.trans {v : World} (first : SamePools v w) (second : SamePools w w') :
    SamePools v w' :=
  ⟨second.1.trans first.1, second.2.trans first.2⟩

theorem World.createPool_some {pool : ℕ} (made : w.createPool succeeds = (w', some pool)) :
    pool = w.pools.next ∧ w'.pools = w.pools.create ∧
      w'.numScheds = Function.update w.numScheds pool 0 := by
  rw [World.createPool] at made
  split at made
  · cases made
    exact ⟨rfl, rfl, rfl⟩
  · cases made

theorem World.createPool_none (failed : w.createPool succeeds = (w', none)) :
    SamePools w w' := by
  rw [World.createPool] at failed
  split at failed
  · cases failed
  · cases failed
    exact ⟨rfl, rfl⟩

/-- **The pools that the loop has made.** -/
structure Filled (w w' : World) (pools : List (Option ℕ)) (entries : List Entry) : Prop where
  owes : Owes w.pools w'.pools (created entries)
  freed : w'.pools.freed = w.pools.freed
  given : entries.map Prod.fst = pools
  same : ∀ pool used, (some pool, used) ∈ entries → used = pool
  new : ∀ pool ∈ created entries, w.pools.next ≤ pool
  numScheds : ∀ pool, w'.numScheds pool = if pool ∈ created entries then 0 else w.numScheds pool

theorem fillPools_some (filled : fillPools succeeds w pools done = (w', some entries)) :
    ∃ more, entries = done ++ more ∧ Filled w w' pools more := by
  induction pools generalizing w done with
  | nil =>
      cases filled
      exact ⟨[], by rw [List.append_nil], .refl _, rfl, rfl, by simp, by simp [created],
        by simp [created]⟩
  | cons entry rest ih =>
      cases entry with
      | some pool =>
          obtain ⟨more, rfl, owes, freed, given, same, new, numScheds⟩ := ih filled
          refine ⟨(some pool, pool) :: more, by simp, owes, freed, by simp [given],
            fun other used member => ?_, new, numScheds⟩
          rcases List.mem_cons.mp member with here | there
          · cases here
            rfl
          · exact same other used there
      | none =>
          rw [fillPools] at filled
          split at filled
          next => cases filled
          next between pool made =>
            obtain ⟨rfl, pools', numScheds'⟩ := World.createPool_some made
            obtain ⟨more, rfl, owes, freed, given, same, new, numScheds⟩ := ih filled
            have one : Owes w.pools between.pools {w.pools.next} := by
              rw [pools']
              exact (Owes.refl w.pools).create
            refine ⟨(none, w.pools.next) :: more, by simp, ?_, ?_, by simp [given],
              fun other used member => ?_, fun pool member => ?_, fun pool => ?_⟩
            · rw [created, ← Multiset.singleton_add]
              exact one.trans owes
            · rw [freed, pools']
              rfl
            · rcases List.mem_cons.mp member with here | there
              · cases here
              · exact same other used there
            · rcases Multiset.mem_cons.mp member with rfl | there
              · exact Nat.le_refl _
              · exact Nat.le_trans one.le (new pool there)
            · rw [numScheds pool, numScheds', created]
              by_cases here : pool = w.pools.next
              · subst here
                simp
              · simp only [Multiset.mem_cons, here, false_or, Function.update_of_ne here]

theorem fillPools_none {before : Objects} (owes : Owes before w.pools (created done))
    (failed : fillPools succeeds w pools done = (w', none)) :
    Owes before w'.pools 0 ∧ ∀ pool < w.pools.next, w'.numScheds pool = w.numScheds pool := by
  induction pools generalizing w done with
  | nil => cases failed
  | cons entry rest ih =>
      cases entry with
      | some pool => exact ih (by simpa [created_append, created] using owes) failed
      | none =>
          rw [fillPools] at failed
          split at failed
          next between made =>
            cases failed
            obtain ⟨pools', numScheds'⟩ := World.createPool_none made
            have owed : Owes before between.pools (created done + 0) := by
              rw [pools', add_zero]
              exact owes
            obtain ⟨balanced, numScheds⟩ := freeCreated_spec owed
            exact ⟨balanced, fun pool _ => by rw [numScheds, numScheds']⟩
          next between pool made =>
            obtain ⟨rfl, pools', numScheds'⟩ := World.createPool_some made
            have owed : Owes before between.pools (created (done ++ [(none, w.pools.next)])) := by
              rw [pools', created_append, add_comm, created, created, Multiset.cons_add, zero_add]
              exact owes.create
            obtain ⟨balanced, numScheds⟩ := ih owed failed
            refine ⟨balanced, fun pool below => ?_⟩
            have older : pool < between.pools.next := by
              rw [pools']
              exact Nat.lt_succ_of_lt below
            rw [numScheds pool older, numScheds']
            exact Function.update_of_ne below.ne _ _

/-! ## The creation -/

/-- An initialization leaves the pools of others alone. -/
def Init.LeavesPools (init : Init) : Prop :=
  ∀ w sched, (init w sched).1.pools = w.pools ∧ (init w sched).1.numScheds = w.numScheds

def Def.LeavesPools (definition : Def) : Prop :=
  ∀ init : Init, definition.init = some init → init.LeavesPools

/-- **A failure**: the pools of the caller are as they were, and those that were made have been
freed once. -/
structure RolledBack (w w' : World) : Prop where
  given : ∀ pool < w.pools.next, w'.numScheds pool = w.numScheds pool ∧
    w'.pools.freed.count pool = w.pools.freed.count pool
  created : ∀ pool, w.pools.next ≤ pool → pool < w'.pools.next →
    w'.pools.freed.count pool = w.pools.freed.count pool + 1

/-- **A success**: the scheduler has the given pools and one that was made for every NULL entry,
none has been freed, and the scheduler is counted in each as often as it occurs. -/
structure Created (w w' : World) (entries : List Entry) (sched : Sched) : Prop where
  pools : sched.pools = entries.map Prod.snd
  same : ∀ pool used, (some pool, used) ∈ entries → used = pool
  new : ∀ pool ∈ created entries, w.pools.next ≤ pool
  owes : Owes w.pools w'.pools (created entries)
  freed : w'.pools.freed = w.pools.freed
  numScheds : ∀ pool, w'.numScheds pool =
    (if pool ∈ created entries then 0 else w.numScheds pool) + sched.pools.count pool

theorem RolledBack.of_owes (owes : Owes w.pools w'.pools 0)
    (same : ∀ pool < w.pools.next, w'.numScheds pool = w.numScheds pool) : RolledBack w w' where
  given pool below := by
    refine ⟨same pool below, ?_⟩
    rw [owes.count_freed, if_neg fun new => Nat.not_lt.mpr new.1 below, add_zero]
  created pool le lt := by rw [owes.count_freed, if_pos ⟨le, lt⟩]

/-- What a failure leaves, in terms of what is owed. -/
structure Undone (w w' : World) : Prop where
  owes : Owes w.pools w'.pools 0
  numScheds : ∀ pool < w.pools.next, w'.numScheds pool = w.numScheds pool

/-- What a creation leaves, from the world on in which its caller began. -/
def Leaves (w : World) (pools : List (Option ℕ)) : World × Except Error Sched → Prop
  | (w', .error _) => Undone w w'
  | (w', .ok sched) => ∃ entries, entries.map Prod.fst = pools ∧ Created w w' entries sched

theorem SamePools.leaves {v : World} {result : World × Except Error Sched}
    (same : SamePools v w) (leaves : Leaves w pools result) : Leaves v pools result := by
  obtain ⟨pools', numScheds'⟩ := same
  obtain ⟨w', error | sched⟩ := result
  · obtain ⟨owes, numScheds⟩ := leaves
    rw [pools'] at owes numScheds
    rw [numScheds'] at numScheds
    exact ⟨owes, numScheds⟩
  · obtain ⟨entries, given, used, sameEntry, new, owes, freed, numScheds⟩ := leaves
    rw [pools'] at new owes freed
    rw [numScheds'] at numScheds
    exact ⟨entries, given, used, sameEntry, new, owes, freed, numScheds⟩

theorem World.malloc_same {result : Option ℕ} (allocated : w.malloc succeeds = (w', result)) :
    SamePools w w' := by
  rw [World.malloc] at allocated
  split at allocated
  · cases allocated
    exact ⟨rfl, rfl⟩
  · cases allocated
    exact ⟨rfl, rfl⟩

/-- A block is freed afterwards. -/
theorem Leaves.freeMemory {result : World × Except Error Sched} (leaves : Leaves w pools result)
    (block : ℕ) : Leaves w pools (result.1.freeMemory block, result.2) := by
  obtain ⟨w', error | sched⟩ := result
  · obtain ⟨owes, numScheds⟩ := leaves
    exact ⟨owes, numScheds⟩
  · obtain ⟨entries, given, used, same, new, owes, freed, numScheds⟩ := leaves
    exact ⟨entries, given, used, same, new, owes, freed, numScheds⟩

/-- A failure that has changed no pool -/
theorem SamePools.undone (same : SamePools w w') : Undone w w' :=
  ⟨same.1 ▸ .refl _, fun pool _ => congrFun same.2 pool⟩

/-- **The scheduler is counted in its pools, or they are left as before.** -/
theorem startSched_leaves {definition : Def} (leavesPools : definition.LeavesPools)
    (filled : Filled w w' pools entries) {sched : Sched}
    (used : sched.pools = entries.map Prod.snd) :
    Leaves w pools (startSched definition sched entries w') := by
  obtain ⟨samePools, counts⟩ : (retainAll w' entries).pools = w'.pools ∧
      ∀ pool, (retainAll w' entries).numScheds pool =
        w'.numScheds pool + (entries.map Prod.snd).count pool := retainAll_spec
  have success : ∀ v, SamePools (retainAll w' entries) v → Created w v entries sched := by
    rintro v ⟨pools', numScheds'⟩
    refine ⟨used, filled.same, filled.new, ?_, ?_, fun pool => ?_⟩
    · rw [pools', samePools]
      exact filled.owes
    · rw [pools', samePools]
      exact filled.freed
    · rw [numScheds', counts pool, filled.numScheds pool, used]
  rw [startSched]
  cases hasInit : definition.init with
  | none => exact ⟨entries, filled.given, success _ ⟨rfl, rfl⟩⟩
  | some init =>
      have leaves := leavesPools init hasInit (retainAll w' entries) sched
      dsimp only
      rcases ran : init (retainAll w' entries) sched with ⟨v, failed | succeeded⟩
      · rw [ran] at leaves
        obtain ⟨pools', numScheds'⟩ := leaves
        have owes : Owes w.pools v.pools (created entries + 0) := by
          rw [pools', samePools, add_zero]
          exact filled.owes
        obtain ⟨balanced, taken⟩ := takeBack_spec owes
        refine ⟨balanced, fun pool below => ?_⟩
        have old : pool ∉ created entries := fun new =>
          Nat.not_lt.mpr (filled.new pool new) below
        change (takeBack v entries).numScheds pool = _
        rw [taken pool, numScheds', counts pool, filled.numScheds pool, if_neg old, count_kept old]
        ring
      · rw [ran] at leaves
        exact ⟨entries, filled.given, success v leaves⟩

/-- **`sched_create` is atomic in its pools.** -/
theorem schedCreate_leaves {definition : Def} (leavesPools : definition.LeavesPools)
    (pools : List (Option ℕ)) (config : Option Config) (defAutomatic : Bool) (w : World) :
    Leaves w pools (schedCreate succeeds definition pools config defAutomatic w) := by
  rw [schedCreate]
  rcases first : w.malloc succeeds with ⟨w₁, _ | block⟩
  · exact (World.malloc_same first).undone
  dsimp only
  rcases second : w₁.malloc succeeds with ⟨w₂, _ | poolList⟩
  · have freed : SamePools w₂ (w₂.freeMemory block) := ⟨rfl, rfl⟩
    exact (((World.malloc_same first).trans (World.malloc_same second)).trans freed).undone
  refine ((World.malloc_same first).trans (World.malloc_same second)).leaves ?_
  dsimp only
  rcases loop : fillPools succeeds w₂ pools [] with ⟨w₃, _ | entries⟩
  · obtain ⟨balanced, numScheds⟩ := fillPools_none (.refl w₂.pools) loop
    exact ⟨balanced, numScheds⟩
  · obtain ⟨entries, rfl, filled⟩ := fillPools_some loop
    exact startSched_leaves leavesPools filled rfl

theorem schedInit_leavesPools : Init.LeavesPools (schedInit succeeds) := by
  intro w sched
  rw [schedInit]
  rcases first : w.malloc succeeds with ⟨w₁, _ | data⟩
  · exact World.malloc_same first
  dsimp only
  rcases second : w₁.malloc succeeds with ⟨w₂, _ | array⟩
  · have freed : SamePools w₂ (w₂.freeMemory data) := ⟨rfl, rfl⟩
    exact ((World.malloc_same first).trans (World.malloc_same second)).trans freed
  · exact (World.malloc_same first).trans (World.malloc_same second)

theorem Predef.definition_leavesPools {predef : Predef} {definition : Def}
    (known : predef.definition succeeds = some definition) : definition.LeavesPools := by
  intro init hasInit
  cases predef with
  | unknown value => cases known
  | _ =>
      cases known
      cases hasInit
      exact schedInit_leavesPools

/-- Nothing is made for an array without NULL entries. -/
theorem created_of_given {used : List ℕ} (given : entries.map Prod.fst = used.map some)
    (same : ∀ pool other, (some pool, other) ∈ entries → other = pool) :
    created entries = 0 ∧ entries.map Prod.snd = used := by
  induction entries generalizing used with
  | nil =>
      cases used with
      | nil => exact ⟨rfl, rfl⟩
      | cons pool rest => cases given
  | cons entry rest ih =>
      cases used with
      | nil => cases given
      | cons pool others =>
          obtain ⟨first, second⟩ := entry
          rw [List.map_cons, List.map_cons] at given
          obtain ⟨rfl, tail⟩ := List.cons.inj given
          obtain ⟨nothing, usedRest⟩ := ih tail fun pool other member =>
            same pool other (List.mem_cons_of_mem _ member)
          refine ⟨nothing, ?_⟩
          rw [List.map_cons, usedRest, same pool second List.mem_cons_self]

/-- **The call of `sched_create`, for the pools that have been made.** -/
theorem createFor_leaves {predef : Predef} {config : Option Config}
    (filled : Filled w w' pools entries) :
    Leaves w pools (createFor succeeds predef entries config w') := by
  have fails : ∀ v, Undone w' v → Undone w (freeCreated v entries) := by
    intro v undone
    have owes : Owes w.pools v.pools (created entries + 0) := filled.owes.trans undone.owes
    obtain ⟨balanced, numScheds⟩ := freeCreated_spec owes
    refine ⟨balanced, fun pool below => ?_⟩
    have old : pool ∉ created entries := fun new => Nat.not_lt.mpr (filled.new pool new) below
    rw [numScheds, undone.numScheds pool (Nat.lt_of_lt_of_le below filled.owes.le),
      filled.numScheds pool, if_neg old]
  rw [createFor]
  cases known : predef.definition succeeds with
  | none => exact fails w' (SamePools.undone ⟨rfl, rfl⟩)
  | some definition =>
      have leaves : Leaves w' (entries.map fun entry => some entry.2)
          (schedCreate succeeds definition (entries.map fun entry => some entry.2) config true w') :=
        schedCreate_leaves (Predef.definition_leavesPools known) _ _ _ _
      dsimp only
      generalize schedCreate succeeds definition (entries.map fun entry => some entry.2) config
        true w' = result at leaves ⊢
      obtain ⟨v, error | sched⟩ := result
      · exact fails v leaves
      · obtain ⟨inner, given, used, same, -, owes, freed, numScheds⟩ := leaves
        have all : inner.map Prod.fst = (entries.map Prod.snd).map some := by
          rw [given, List.map_map]
          rfl
        obtain ⟨nothing, pools'⟩ := created_of_given all same
        rw [nothing] at owes numScheds
        rw [pools'] at used
        refine ⟨entries, filled.given, used, filled.same, filled.new, ?_, freed.trans filled.freed,
          fun pool => ?_⟩
        · have both := filled.owes.trans owes
          rwa [add_zero] at both
        · rw [numScheds pool, if_neg (Multiset.notMem_zero pool), filled.numScheds pool]

/-- The array of pools, as `ABTI_sched_create_basic` reads it -/
def Predef.given (predef : Predef) (pools : Option (List (Option ℕ))) : List (Option ℕ) :=
  pools.getD (List.replicate (predef.numPools.getD 0) none)

/-- **`ABTI_sched_create_basic` is atomic in its pools.** -/
theorem schedCreateBasic_leaves (predef : Predef) (array : Option (List (Option ℕ)))
    (config : Option Config) (w : World) :
    Leaves w (predef.given array) (schedCreateBasic succeeds predef array config w) := by
  cases array with
  | none =>
      rw [schedCreateBasic, Predef.given, Option.getD_none]
      cases known : predef.numPools with
      | none => exact SamePools.undone ⟨rfl, rfl⟩
      | some numPools =>
          dsimp only
          rcases loop : fillPools succeeds w (List.replicate numPools none) [] with
            ⟨w₁, _ | entries⟩
          · obtain ⟨balanced, numScheds⟩ := fillPools_none (.refl w.pools) loop
            exact ⟨balanced, numScheds⟩
          · obtain ⟨entries, rfl, filled⟩ := fillPools_some loop
            exact createFor_leaves filled
  | some pools =>
      rw [Predef.given, Option.getD_some]
      cases pools with
      | nil =>
          exact createFor_leaves
            ⟨.refl _, rfl, rfl, by simp, by simp [created], by simp [created]⟩
      | cons entry rest =>
          rw [schedCreateBasic]
          · rcases first : w.malloc succeeds with ⟨w₁, _ | poolList⟩
            · exact (World.malloc_same first).undone
            refine (World.malloc_same first).leaves ?_
            dsimp only
            rcases loop : fillPools succeeds w₁ (entry :: rest) [] with ⟨w₂, _ | entries⟩
            · obtain ⟨balanced, numScheds⟩ := fillPools_none (.refl w₁.pools) loop
              exact ⟨balanced, numScheds⟩
            · obtain ⟨entries, rfl, filled⟩ := fillPools_some loop
              exact (createFor_leaves filled).freeMemory poolList
          · simp

/-- A creation either fails or succeeds. -/
def Atomic (w : World) (pools : List (Option ℕ)) : World × Except Error Sched → Prop
  | (w', .error _) => RolledBack w w'
  | (w', .ok sched) => ∃ entries, entries.map Prod.fst = pools ∧ Created w w' entries sched

theorem Leaves.atomic {result : World × Except Error Sched} (leaves : Leaves w pools result) :
    Atomic w pools result := by
  obtain ⟨w', error | sched⟩ := result
  · exact .of_owes leaves.owes leaves.numScheds
  · exact leaves

/-- **The creation of a scheduler is atomic in its pools**, whatever entries the array has and
whichever step fails. -/
theorem sched_creation_atomic (succeeds : ℕ → Bool) (w : World) (config : Option Config) :
    (∀ (definition : Def) (pools : List (Option ℕ)) (defAutomatic : Bool),
      definition.LeavesPools →
      Atomic w pools (schedCreate succeeds definition pools config defAutomatic w)) ∧
    ∀ (predef : Predef) (pools : Option (List (Option ℕ))),
      Atomic w (predef.given pools) (schedCreateBasic succeeds predef pools config w) :=
  ⟨fun _ pools defAutomatic leaves => (schedCreate_leaves leaves pools config defAutomatic w).atomic,
    fun predef pools => (schedCreateBasic_leaves predef pools config w).atomic⟩

/-- A user's array has a NULL entry and the same pool twice, and the initialization fails; the basic
scheduler can then be created for it. -/
theorem sched_creation_atomic_repeated :
    let w : World := ⟨0, ⟨0, 0⟩, ⟨1, 0⟩, fun _ => 0⟩
    let pools : List (Option ℕ) := [some 0, none, some 0]
    let fails : Def := ⟨some fun w _ => (w, false)⟩
    let first := schedCreate (fun _ => true) fails pools none false w
    let second := schedCreateBasic (fun _ => true) .basic (some pools) none first.1
    first.1.pools = ⟨2, {1}⟩ ∧ first.1.numScheds 0 = 0 ∧ Atomic w pools first ∧
      second.1.pools = ⟨3, {1}⟩ ∧ second.1.numScheds 0 = 2 ∧ Atomic first.1 pools second := by
  intro w pools fails first second
  obtain ⟨creates, -⟩ := sched_creation_atomic (fun _ => true) w none
  obtain ⟨-, createsBasic⟩ := sched_creation_atomic (fun _ => true) first.1 none
  have leaves : fails.LeavesPools := by
    intro init hasInit
    cases hasInit
    exact fun _ _ => ⟨rfl, rfl⟩
  exact ⟨rfl, rfl, creates fails pools false leaves, rfl, rfl, createsBasic .basic (some pools)⟩

/-! ## Memory -/

/-- An initialization that fails frees its memory. -/
def Init.CleansUp (init : Init) : Prop :=
  ∀ w sched w', init w sched = (w', false) → Owes w.memory w'.memory 0

theorem World.malloc_some {block : ℕ} (allocated : w.malloc succeeds = (w', some block)) :
    Owes w.memory w'.memory {block} := by
  rw [World.malloc] at allocated
  split at allocated
  · cases allocated
    exact (Owes.refl w.memory).create
  · cases allocated

theorem World.malloc_none (failed : w.malloc succeeds = (w', none)) :
    Owes w.memory w'.memory 0 := by
  rw [World.malloc] at failed
  split at failed
  · cases failed
  · cases failed
    exact .refl w.memory

theorem schedInit_cleansUp : Init.CleansUp (schedInit succeeds) := by
  intro w sched w' failed
  rw [schedInit] at failed
  split at failed
  next w₁ first =>
    cases failed
    exact World.malloc_none first
  next w₁ data first =>
    split at failed
    next w₂ second =>
      cases failed
      exact ((World.malloc_some first).trans (World.malloc_none second)).free
    next => cases failed

theorem freeCreated_memory (w : World) (entries : List Entry) :
    (freeCreated w entries).memory = w.memory := by
  induction entries generalizing w with
  | nil => rfl
  | cons entry rest ih => rcases entry with ⟨_ | given, pool⟩ <;> exact ih _

theorem takeBack_memory (w : World) (entries : List Entry) :
    (takeBack w entries).memory = w.memory := by
  induction entries generalizing w with
  | nil => rfl
  | cons entry rest ih => rcases entry with ⟨_ | given, pool⟩ <;> exact ih _

theorem retainAll_memory (w : World) (entries : List Entry) :
    (retainAll w entries).memory = w.memory := by
  induction entries generalizing w with
  | nil => rfl
  | cons entry rest ih => exact ih _

theorem fillPools_memory (succeeds : ℕ → Bool) (w : World) (pools : List (Option ℕ))
    (done : List Entry) :
    (fillPools succeeds w pools done).1.memory = w.memory := by
  induction pools generalizing w done with
  | nil => rfl
  | cons entry rest ih =>
      cases entry with
      | some pool => exact ih _ _
      | none =>
          rw [fillPools, World.createPool]
          split
          next made =>
            split at made <;> cases made
            exact freeCreated_memory _ done
          next made =>
            split at made <;> cases made
            exact ih _ _

/-- **A scheduler that cannot be initialized is freed with its array.** -/
theorem startSched_memory {definition : Def} {sched : Sched} {error : Error} {before : Objects}
    (cleans : ∀ init : Init, definition.init = some init → init.CleansUp)
    (owes : Owes before w.memory (sched.poolList ::ₘ {sched.block}))
    (failed : startSched definition sched entries w = (w', .error error)) :
    Owes before w'.memory 0 := by
  rw [startSched] at failed
  split at failed
  next => cases failed
  next init hasInit =>
    split at failed
    next => cases failed
    next v ran =>
      cases failed
      have inner := cleans init hasInit _ _ _ ran
      rw [retainAll_memory] at inner
      have all : Owes before v.memory (sched.poolList ::ₘ {sched.block}) := by
        simpa using owes.trans inner
      have freed : Owes before (takeBack v entries).memory (sched.poolList ::ₘ {sched.block}) := by
        rw [takeBack_memory]
        exact all
      exact freed.free.free

/-- **A failed `sched_create` frees its memory.** -/
theorem schedCreate_memory {definition : Def} {config : Option Config} {defAutomatic : Bool}
    {error : Error} (cleans : ∀ init : Init, definition.init = some init → init.CleansUp)
    (failed : schedCreate succeeds definition pools config defAutomatic w = (w', .error error)) :
    Owes w.memory w'.memory 0 := by
  rw [schedCreate] at failed
  split at failed
  next w₁ first =>
    cases failed
    exact World.malloc_none first
  next w₁ block first =>
    have one := World.malloc_some first
    dsimp only at failed
    split at failed
    next w₂ second =>
      cases failed
      exact (one.trans (World.malloc_none second)).free
    next w₂ poolList second =>
      have two : Owes w.memory w₂.memory (poolList ::ₘ {block}) := by
        have both := one.trans (World.malloc_some second)
        rwa [add_comm, Multiset.singleton_add] at both
      have kept := fillPools_memory succeeds w₂ pools []
      split at failed
      next w₃ loop =>
        cases failed
        rw [loop] at kept
        have three : Owes w.memory w₃.memory (poolList ::ₘ {block}) := kept ▸ two
        exact three.free.free
      next w₃ entries loop =>
        rw [loop] at kept
        have three : Owes w.memory w₃.memory (poolList ::ₘ {block}) := kept ▸ two
        exact startSched_memory cleans three failed

theorem Predef.definition_cleansUp {predef : Predef} {definition : Def}
    (known : predef.definition succeeds = some definition) :
    ∀ init : Init, definition.init = some init → init.CleansUp := by
  intro init hasInit
  cases predef with
  | unknown value => cases known
  | _ =>
      cases known
      cases hasInit
      exact schedInit_cleansUp

theorem createFor_memory {predef : Predef} {config : Option Config} {error : Error}
    (failed : createFor succeeds predef entries config w = (w', .error error)) :
    Owes w.memory w'.memory 0 := by
  rw [createFor] at failed
  cases known : predef.definition succeeds with
  | none =>
      rw [known] at failed
      cases failed
      rw [freeCreated_memory]
      exact .refl w.memory
  | some definition =>
      rw [known] at failed
      dsimp only at failed
      split at failed
      next => cases failed
      next v inner ran =>
        cases failed
        rw [freeCreated_memory]
        exact schedCreate_memory (Predef.definition_cleansUp known) ran

/-- **A failed `ABTI_sched_create_basic` frees its memory too.** -/
theorem schedCreateBasic_memory {predef : Predef} {array : Option (List (Option ℕ))}
    {config : Option Config} {error : Error}
    (failed : schedCreateBasic succeeds predef array config w = (w', .error error)) :
    Owes w.memory w'.memory 0 := by
  cases array with
  | none =>
      rw [schedCreateBasic] at failed
      split at failed
      next =>
        cases failed
        exact .refl w.memory
      next numPools known =>
        have kept := fillPools_memory succeeds w (List.replicate numPools none) []
        split at failed
        next w₁ loop =>
          cases failed
          rw [loop] at kept
          exact kept ▸ .refl w.memory
        next w₁ entries loop =>
          rw [loop] at kept
          have inner := createFor_memory failed
          rwa [kept] at inner
  | some pools =>
      cases pools with
      | nil => exact createFor_memory failed
      | cons entry rest =>
          rw [schedCreateBasic] at failed
          · split at failed
            next w₁ first =>
              cases failed
              exact World.malloc_none first
            next w₁ poolList first =>
              have one := World.malloc_some first
              have kept := fillPools_memory succeeds w₁ (entry :: rest) []
              split at failed
              next w₂ loop =>
                cases failed
                rw [loop] at kept
                have still : Owes w.memory w₂.memory {poolList} := kept ▸ one
                exact still.free
              next w₂ entries loop =>
                rw [loop] at kept
                dsimp only at failed
                rcases ran : createFor succeeds predef entries config w₂ with ⟨v, result⟩
                rw [ran] at failed
                cases failed
                have inner := createFor_memory ran
                have still : Owes w.memory w₂.memory {poolList} := kept ▸ one
                have both := still.trans inner
                rw [add_zero] at both
                exact both.free
          · simp

end ArgobotsReduction.Scheduling.SchedCreate
