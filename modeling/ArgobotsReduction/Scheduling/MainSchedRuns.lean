import Mathlib.Algebra.BigOperators.Intervals
import Mathlib.Algebra.Order.BigOperators.Group.Finset
import Mathlib.Data.List.Count
import ArgobotsReduction.Scheduling.MainSched

/-!
# Runs of the main scheduler's replacement

The caller of an overwritten request has been associated with a pool of a scheduler
that never becomes the main one.  It is resumed into that pool, which may have been
freed just before (`not_replaced_safe`).

In the runs in which the first pool of an overwritten scheduler is one of the new
scheduler or of the running one, no caller is stranded (`replaced_safe`).
-/

set_option autoImplicit false

namespace ArgobotsReduction.Scheduling.MainSched

open Parallel

universe u

variable {ι : Type u}

/-! ## Pools and the schedulers that have them -/

section Accounts

variable {pools : ℕ → Pool} {numPools : ℕ} {scheds scheds' : ℕ → Sched ι} {numScheds : ℕ}

theorem numScheds_release (pools : ℕ → Pool) (list : List ℕ) (p : ℕ) :
    (changePools Pool.release pools list p).numScheds = (pools p).numScheds - list.count p := by
  induction list generalizing pools with
  | nil => rfl
  | cons q list ih =>
      rw [changePools, List.foldl_cons, ← changePools, ih, List.count_cons]
      rcases eq_or_ne p q with rfl | apart
      · simp only [Function.update_self, Pool.release, beq_self_eq_true, if_true]
        omega
      · simp [Function.update_of_ne apart, apart.symm]

theorem numScheds_retain (pools : ℕ → Pool) (list : List ℕ) (p : ℕ) :
    (changePools Pool.retain pools list p).numScheds = (pools p).numScheds + list.count p := by
  induction list generalizing pools with
  | nil => rfl
  | cons q list ih =>
      rw [changePools, List.foldl_cons, ← changePools, ih, List.count_cons]
      rcases eq_or_ne p q with rfl | apart
      · simp only [Function.update_self, Pool.retain, beq_self_eq_true, if_true]
        omega
      · simp [Function.update_of_ne apart, apart.symm]

theorem freed_retain (pools : ℕ → Pool) (list : List ℕ) (p : ℕ) :
    (changePools Pool.retain pools list p).freed = (pools p).freed := by
  induction list generalizing pools with
  | nil => rfl
  | cons q list ih =>
      rw [changePools, List.foldl_cons, ← changePools, ih]
      rcases eq_or_ne p q with rfl | apart
      · simp [Pool.retain]
      · simp [Function.update_of_ne apart]

/-- A pool that is freed by a release has been freed before or has lost its last
scheduler. -/
theorem freed_release {pools : ℕ → Pool} {list : List ℕ} {p : ℕ}
    (freed : (changePools Pool.release pools list p).freed = true) :
    (pools p).freed = true ∨ (changePools Pool.release pools list p).numScheds = 0 := by
  induction list generalizing pools with
  | nil => exact .inl freed
  | cons q list ih =>
      rw [changePools, List.foldl_cons, ← changePools] at freed ⊢
      rcases ih freed with before | last
      · rcases eq_or_ne p q with rfl | apart
        · simp only [Function.update_self, Pool.release, Bool.or_eq_true, Bool.and_eq_true,
            beq_iff_eq] at before
          rcases before with before | ⟨-, last⟩
          · exact .inl before
          · right
            rw [numScheds_release]
            simp [Pool.release, last]
        · rw [Function.update_of_ne apart] at before
          exact .inl before
      · exact .inr last

/-- What the schedulers have is the same if no scheduler changes its pools. -/
theorem holders_congr (same : ∀ id < numScheds, (scheds' id).freed = (scheds id).freed ∧
    (scheds' id).pools = (scheds id).pools) (p : ℕ) :
    holders scheds' numScheds p = holders scheds numScheds p := by
  refine Finset.sum_congr rfl fun id member => ?_
  rw [(same id (Finset.mem_range.mp member)).1, (same id (Finset.mem_range.mp member)).2]

theorem count_le_holders {id : ℕ} (created : id < numScheds) (live : (scheds id).freed = false)
    (p : ℕ) : (scheds id).pools.count p ≤ holders scheds numScheds p := by
  have one := Finset.single_le_sum
    (f := fun id => if (scheds id).freed then 0 else (scheds id).pools.count p)
    (fun _ _ => Nat.zero_le _) (Finset.mem_range.mpr created)
  rw [holders]
  simpa [live] using one

/-- A scheduler that is freed gives back what it has. -/
theorem holders_free {id : ℕ} {sched : Sched ι} (created : id < numScheds)
    (live : (scheds id).freed = false) (freed : sched.freed = true) (p : ℕ) :
    holders (Function.update scheds id sched) numScheds p =
      holders scheds numScheds p - (scheds id).pools.count p := by
  have member := Finset.mem_range.mpr created
  have others : ∑ j ∈ (Finset.range numScheds).erase id,
      (if (Function.update scheds id sched j).freed then 0
        else (Function.update scheds id sched j).pools.count p) =
      ∑ j ∈ (Finset.range numScheds).erase id,
        (if (scheds j).freed then 0 else (scheds j).pools.count p) :=
    Finset.sum_congr rfl fun j inside => by
      rw [Function.update_of_ne (Finset.ne_of_mem_erase inside)]
  rw [holders, holders, ← Finset.add_sum_erase _ _ member, others,
    ← Finset.add_sum_erase (Finset.range numScheds) _ member]
  simp [freed, live]

theorem Accounts.congr (accounts : Accounts pools numPools scheds numScheds)
    (same : ∀ id < numScheds, (scheds' id).freed = (scheds id).freed ∧
      (scheds' id).pools = (scheds id).pools) : Accounts pools numPools scheds' numScheds where
  counted p := (accounts.counted p).trans (holders_congr same p).symm
  freed := accounts.freed
  inside id created live p member := by
    rw [(same id created).1] at live
    rw [(same id created).2] at member
    exact accounts.inside id created live p member

/-- The pools of a scheduler have not been freed. -/
theorem Accounts.live (accounts : Accounts pools numPools scheds numScheds) {id p : ℕ}
    (created : id < numScheds) (live : (scheds id).freed = false)
    (member : p ∈ (scheds id).pools) : (pools p).freed = false := by
  by_contra freed
  have none := accounts.freed p (Bool.eq_true_of_not_eq_false freed)
  have some := List.count_pos_iff.mpr member
  have most := count_le_holders (p := p) created live
  rw [← accounts.counted p] at most
  omega

/-- `ABTI_sched_free` keeps the accounts. -/
theorem Accounts.free (accounts : Accounts pools numPools scheds numScheds) {id : ℕ}
    (sched : Sched ι) (created : id < numScheds) (live : (scheds id).freed = false)
    (freed : sched.freed = true) :
    Accounts (changePools Pool.release pools (scheds id).pools) numPools
      (Function.update scheds id sched) numScheds where
  counted p := by rw [numScheds_release, holders_free created live freed, accounts.counted]
  freed p gone := by
    rcases freed_release gone with before | last
    · rw [numScheds_release, accounts.freed p before, Nat.zero_sub]
    · exact last
  inside j within alive p member := by
    have apart : j ≠ id := by
      rintro rfl
      simp [freed] at alive
    rw [Function.update_of_ne apart] at alive member
    exact accounts.inside j within alive p member

theorem Accounts.createPool (accounts : Accounts pools numPools scheds numScheds)
    (automatic : Bool) :
    Accounts (Function.update pools numPools ⟨automatic, 0, false⟩) (numPools + 1) scheds
      numScheds where
  counted p := by
    rcases eq_or_ne p numPools with rfl | apart
    · rw [Function.update_self]
      refine (Finset.sum_eq_zero fun id member => ?_).symm
      cases live : (scheds id).freed with
      | true => rfl
      | false =>
          refine List.count_eq_zero.mpr fun has => ?_
          exact absurd (accounts.inside id (Finset.mem_range.mp member) live _ has) (lt_irrefl _)
    · rw [Function.update_of_ne apart, accounts.counted]
  freed p gone := by
    rcases eq_or_ne p numPools with rfl | apart
    · simp
    · rw [Function.update_of_ne apart] at gone ⊢
      exact accounts.freed p gone
  inside id created live p member :=
    Nat.lt_succ_of_lt (accounts.inside id created live p member)

theorem Accounts.createSched (accounts : Accounts pools numPools scheds numScheds)
    {list : List ℕ} (live : ∀ p ∈ list, p < numPools ∧ (pools p).freed = false)
    (automatic : Bool) :
    Accounts (changePools Pool.retain pools list) numPools
      (Function.update scheds numScheds (.new list automatic)) (numScheds + 1) where
  counted p := by
    rw [numScheds_retain, holders, Finset.sum_range_succ, accounts.counted]
    congr 1
    · refine Finset.sum_congr rfl fun id member => ?_
      rw [Function.update_of_ne (Finset.mem_range.mp member).ne]
    · simp [Sched.new]
  freed p gone := by
    rw [freed_retain] at gone
    rw [numScheds_retain, accounts.freed p gone, zero_add, List.count_eq_zero]
    intro member
    simp [(live p member).2] at gone
  inside id created alive p member := by
    rcases eq_or_ne id numScheds with rfl | apart
    · rw [Function.update_self] at member
      exact (live p member).1
    · rw [Function.update_of_ne apart] at alive member
      exact accounts.inside id (lt_of_le_of_ne (Nat.le_of_lt_succ created) apart) alive p member

end Accounts

/-! ## Discarding a scheduler -/

namespace State

variable {s : State ι} {id : ℕ}

theorem discardAndFree_scheds (s : State ι) (id : ℕ) :
    (s.discardAndFree id).scheds = Function.update s.scheds id
      { s.scheds id with
        used := .notUsed
        ythread := false
        freed := (s.scheds id).freed || (s.scheds id).automatic } := by
  rw [discardAndFree]
  split <;> rename_i automatic <;> simp [schedFree, setSched, automatic]

theorem discardAndFree_frees (s : State ι) (id : ℕ) :
    (s.discardAndFree id).frees =
      if (s.scheds id).automatic then id :: s.frees else s.frees := by
  rw [discardAndFree]
  split <;> rfl

theorem discardAndFree_threadFreed (s : State ι) (id : ℕ) :
    (s.discardAndFree id).threadFreed = (s.threadFreed || (s.scheds id).ythread) := by
  rw [discardAndFree]
  split <;> simp [schedFree, setSched]

@[simp]
theorem discardAndFree_mainSched : (s.discardAndFree id).mainSched = s.mainSched := by
  rw [discardAndFree]
  split <;> rfl

@[simp]
theorem discardAndFree_given : (s.discardAndFree id).given = s.given := by
  rw [discardAndFree]
  split <;> rfl

@[simp]
theorem discardAndFree_numScheds : (s.discardAndFree id).numScheds = s.numScheds := by
  rw [discardAndFree]
  split <;> rfl

@[simp]
theorem discardAndFree_pool : (s.discardAndFree id).pool = s.pool := by
  rw [discardAndFree]
  split <;> rfl

@[simp]
theorem discardAndFree_blocked : (s.discardAndFree id).blocked = s.blocked := by
  rw [discardAndFree]
  split <;> rfl

/-- A discarded scheduler keeps the accounts. -/
theorem accounts_discardAndFree (accounts : Accounts s.pools s.numPools s.scheds s.numScheds)
    (created : id < s.numScheds) (live : (s.scheds id).freed = false) :
    Accounts (s.discardAndFree id).pools (s.discardAndFree id).numPools
      (s.discardAndFree id).scheds (s.discardAndFree id).numScheds := by
  have unused : Accounts s.pools s.numPools
      (Function.update s.scheds id { s.scheds id with used := .notUsed }) s.numScheds := by
    refine accounts.congr fun j _ => ?_
    rcases eq_or_ne j id with rfl | apart
    · simp
    · simp [Function.update_of_ne apart]
  rw [discardAndFree]
  split
  next =>
    have freed := unused.free { s.scheds id with used := .notUsed, freed := true, ythread := false }
      created (by simpa using live) rfl
    simpa [schedFree, setSched] using freed
  next =>
    refine accounts.congr fun j _ => ?_
    rcases eq_or_ne j id with rfl | apart
    · simp [setSched]
    · simp [setSched, Function.update_of_ne apart]

end State

/-! ## The invariant -/

section Core

/-- A scheduler that the stream has been given and that is neither the main one nor to
become it. -/
def State.Dropped (s : State ι) (id : ℕ) : Prop :=
  id ∈ s.given ∧ id ≠ s.mainSched ∧ s.main.replaceSched ≠ some id

/-- The automatic schedulers among those that are dropped have been freed once, and no
other has. -/
structure Settled (dropped : ℕ → Prop) (automatic : ℕ → Bool) (frees : List ℕ) : Prop where
  freed : ∀ id, dropped id → automatic id = true → frees.count id = 1
  kept : ∀ id, ¬(dropped id ∧ automatic id = true) → frees.count id = 0

theorem Settled.congr {dropped dropped' : ℕ → Prop} {automatic automatic' : ℕ → Bool}
    {frees : List ℕ} (settled : Settled dropped automatic frees)
    (same : ∀ id, dropped' id ↔ dropped id)
    (auto : ∀ id, dropped id → automatic' id = automatic id) :
    Settled dropped' automatic' frees where
  freed id gone free := by
    have before := (same id).mp gone
    exact settled.freed id before ((auto id before).symm.trans free)
  kept id still := settled.kept id fun gone =>
    still ⟨(same id).mpr gone.1, (auto id gone.1).trans gone.2⟩

/-- One more scheduler is dropped. -/
theorem Settled.discard {dropped dropped' : ℕ → Prop} {automatic : ℕ → Bool} {frees : List ℕ}
    {old : ℕ} (settled : Settled dropped automatic frees)
    (drops : ∀ id, dropped' id ↔ dropped id ∨ id = old) (before : ¬dropped old) :
    Settled dropped' automatic (if automatic old then old :: frees else frees) where
  freed id gone free := by
    rcases eq_or_ne id old with rfl | apart
    · rw [if_pos free, List.count_cons_self, settled.kept id fun both => before both.1]
    · have count := settled.freed id (((drops id).mp gone).resolve_right apart) free
      split
      · rwa [List.count_cons_of_ne apart.symm]
      · exact count
  kept id still := by
    have count := settled.kept id fun both => still ⟨(drops id).mpr (.inl both.1), both.2⟩
    split
    next free =>
      have apart : id ≠ old := by
        rintro rfl
        exact still ⟨(drops id).mpr (.inr rfl), free⟩
      rwa [List.count_cons_of_ne apart.symm]
    next => exact count

/-- What holds whenever nobody discards a scheduler. -/
structure Core (s : State ι) : Prop where
  accounts : Accounts s.pools s.numPools s.scheds s.numScheds
  created : ∀ id ∈ s.given, id < s.numScheds
  mainGiven : s.mainSched ∈ s.given
  live : s.main.freed = false
  pending : ∀ id, s.main.replaceSched = some id →
    id ∈ s.given ∧ id ≠ s.mainSched ∧ (s.scheds id).freed = false
  idle : ∀ id < s.numScheds, id ∉ s.given ∨ s.main.replaceSched = some id →
    (s.scheds id).replaceSched = none ∧ (s.scheds id).replaceWaiter = none ∧
      (s.scheds id).request = false
  owner : ∀ id, (s.scheds id).ythread = true ↔ id = s.mainSched
  threadFreed : s.threadFreed = false
  settled : Settled s.Dropped (fun id => (s.scheds id).automatic) s.frees

/-- The request that waits for the scheduler to stop, and its caller. -/
inductive Phase (s : State ι) : Prop where
  | running (noSched : s.main.replaceSched = none) (noRequest : s.main.request = false)
      (last : s.given.head? = some s.mainSched) (awake : ∀ u, s.blocked u = false)
  | replacing (id : ℕ) (waiter : ι) (sched : s.main.replaceSched = some id)
      (waits : s.main.replaceWaiter = some waiter) (request : s.main.request = true)
      (last : s.given.head? = some id) (asleep : ∀ u, s.blocked u = true ↔ u = waiter)
      (first : (s.scheds id).pools.head? = some (s.pool waiter))

end Core

section Steps

variable [DecidableEq ι] {s t : State ι}

/-- What a discarded scheduler leaves behind. -/
structure Overwritten (s t : State ι) (old : ℕ) (waiter : ι) : Prop where
  accounts : Accounts t.pools t.numPools t.scheds t.numScheds
  mainSched : t.mainSched = s.mainSched
  given : t.given = s.given
  numScheds : t.numScheds = s.numScheds
  pool : t.pool = s.pool
  main : t.main = { s.main with replaceSched := none, replaceWaiter := none }
  others : ∀ id, id ≠ s.mainSched → id ≠ old → t.scheds id = s.scheds id
  ythread : (t.scheds old).ythread = false
  automatic : ∀ id, (t.scheds id).automatic = (s.scheds id).automatic
  frees : t.frees = if (s.scheds old).automatic then old :: s.frees else s.frees
  threadFreed : t.threadFreed = (s.threadFreed || (s.scheds old).ythread)
  blocked : t.blocked = Function.update s.blocked waiter false
  pushed : t.pushed = some (waiter, s.pool waiter)

theorem Core.overwritten (core : Core s) {old : ℕ} {waiter : ι}
    (pending : s.main.replaceSched = some old) (waits : s.main.replaceWaiter = some waiter) :
    ∃ t, s.overwrite = some t ∧ Overwritten s t old waiter := by
  obtain ⟨given, apart, live⟩ := core.pending old pending
  have mainSame : (s.discardAndFree old).main = s.main := by
    rw [State.main, State.discardAndFree_scheds, State.discardAndFree_mainSched,
      Function.update_of_ne apart.symm, State.main]
  have accounts := State.accounts_discardAndFree core.accounts (core.created old given) live
  simp only [State.overwrite, pending, waits, Option.map_some, Option.some.injEq,
    exists_eq_left']
  constructor
  case accounts =>
    refine accounts.congr fun id _ => ?_
    rcases eq_or_ne id s.mainSched with rfl | other
    · simp [State.setSched, State.resumeAndPush, State.main]
    · simp [State.setSched, State.resumeAndPush, Function.update_of_ne other]
  case main =>
    simp [State.main, State.setSched, State.resumeAndPush, State.discardAndFree_scheds,
      apart.symm]
  case others =>
    intro id notMain notOld
    simp [State.setSched, State.resumeAndPush, State.discardAndFree_scheds, notMain, notOld]
  case ythread =>
    simp [State.setSched, State.resumeAndPush, State.discardAndFree_scheds, apart]
  case automatic =>
    intro id
    rcases eq_or_ne id s.mainSched with rfl | notMain
    · simp [State.setSched, State.resumeAndPush, State.main, State.discardAndFree_scheds,
        apart.symm]
    · rcases eq_or_ne id old with rfl | notOld
      · simp [State.setSched, State.resumeAndPush, State.discardAndFree_scheds, notMain]
      · simp [State.setSched, State.resumeAndPush, State.discardAndFree_scheds, notMain, notOld]
  case frees => exact State.discardAndFree_frees s old
  case threadFreed => exact State.discardAndFree_threadFreed s old
  all_goals simp [State.setSched, State.resumeAndPush]

/-- A pending scheduler is discarded. -/
theorem Core.overwrite (core : Core s) {old : ℕ} {waiter : ι}
    (pending : s.main.replaceSched = some old) (done : Overwritten s t old waiter) : Core t := by
  obtain ⟨given, apart, live⟩ := core.pending old pending
  have replaced : t.main.replaceSched = none := by rw [done.main]
  refine ⟨done.accounts, ?_, ?_, ?_, ?_, ?_, ?_, ?_, ?_⟩
  · rw [done.given, done.numScheds]
    exact core.created
  · rw [done.given, done.mainSched]
    exact core.mainGiven
  · rw [done.main]
    exact core.live
  · simp [replaced]
  · intro id created fresh
    have unused : id ∉ s.given := by simpa [replaced, done.given] using fresh
    have notMain : id ≠ s.mainSched := fun same => unused (same ▸ core.mainGiven)
    have notOld : id ≠ old := fun same => unused (same ▸ given)
    rw [done.others id notMain notOld]
    exact core.idle id (done.numScheds ▸ created) (.inl unused)
  · intro id
    rw [done.mainSched]
    rcases eq_or_ne id s.mainSched with rfl | notMain
    · rw [← done.mainSched, ← State.main, done.main]
      simpa [State.main, done.mainSched] using core.owner s.mainSched
    · rcases eq_or_ne id old with rfl | notOld
      · simp [done.ythread, notMain]
      · rw [done.others id notMain notOld]
        exact core.owner id
  · have mine : (s.scheds old).ythread = false := by
      simpa using (core.owner old).not.mpr apart
    rw [done.threadFreed, core.threadFreed, mine, Bool.or_self]
  · have notDropped : ¬s.Dropped old := fun dropped => dropped.2.2 pending
    rw [done.frees]
    refine (core.settled.discard (fun id => Iff.rfl) notDropped).congr (fun id => ?_)
      fun id _ => done.automatic id
    simp only [State.Dropped, replaced, done.given, done.mainSched, pending]
    constructor
    · rintro ⟨member, notMain, -⟩
      rcases eq_or_ne id old with rfl | notOld
      · exact .inr rfl
      · exact .inl ⟨member, notMain, by simpa using notOld.symm⟩
    · rintro (⟨member, notMain, -⟩ | rfl)
      · exact ⟨member, notMain, by simp⟩
      · exact ⟨given, apart, by simp⟩

@[simp]
theorem State.main_await {caller : ι} {id : ℕ} : (s.await caller id).main =
    { s.main with replaceSched := some id, replaceWaiter := some caller, request := true } := by
  simp [State.main, State.await, State.setSched]

theorem State.dropped_await {caller : ι} {id j : ℕ} :
    (s.await caller id).Dropped j ↔ (j = id ∨ j ∈ s.given) ∧ j ≠ s.mainSched ∧ j ≠ id := by
  rw [State.Dropped, State.main_await, Ne, Ne, Option.some.injEq, eq_comm (a := id)]
  exact and_congr_left fun _ => List.mem_cons

/-- A new scheduler is to replace the current one. -/
theorem Core.await (core : Core s) (noSched : s.main.replaceSched = none) {caller : ι} {id : ℕ}
    (unused : s.Unused id) : Core (s.await caller id) := by
  obtain ⟨created, live, fresh⟩ := unused
  have apart : id ≠ s.mainSched := fun same => fresh (same ▸ core.mainGiven)
  have others : ∀ j, j ≠ s.mainSched → (s.await caller id).scheds j = s.scheds j := fun j notMain =>
    Function.update_of_ne notMain _ _
  have mains : (s.await caller id).scheds s.mainSched =
      { s.main with replaceSched := some id, replaceWaiter := some caller, request := true } :=
    State.main_await
  refine ⟨core.accounts.congr fun j _ => ?_, fun j member => ?_, ?_, ?_, fun j same => ?_,
    fun j within pending => ?_, fun j => ?_, core.threadFreed, ?_⟩
  · rcases eq_or_ne j s.mainSched with rfl | notMain
    · rw [mains]
      exact ⟨rfl, rfl⟩
    · rw [others j notMain]
      exact ⟨rfl, rfl⟩
  · rcases List.mem_cons.mp member with rfl | earlier
    · exact created
    · exact core.created j earlier
  · exact List.mem_cons_of_mem _ core.mainGiven
  · rw [State.main_await]
    exact core.live
  · rw [State.main_await, Option.some.injEq] at same
    subst same
    rw [others id apart]
    exact ⟨List.mem_cons_self, apart, live⟩
  · rw [State.main_await, Option.some.injEq] at pending
    have before : j ∉ s.given := by
      rcases pending with given | rfl
      · exact fun member => given (List.mem_cons_of_mem _ member)
      · exact fresh
    have notMain : j ≠ s.mainSched := fun same => before (same ▸ core.mainGiven)
    rw [others j notMain]
    exact core.idle j within (.inl before)
  · rcases eq_or_ne j s.mainSched with rfl | notMain
    · rw [mains]
      exact core.owner s.mainSched
    · rw [others j notMain]
      exact core.owner j
  · refine core.settled.congr (fun j => ?_) fun j dropped => ?_
    · rw [State.dropped_await]
      constructor
      · rintro ⟨member, notMain, notNew⟩
        exact ⟨member.resolve_left notNew, notMain, by simp [noSched]⟩
      · rintro ⟨member, notMain, -⟩
        exact ⟨.inr member, notMain, fun same => fresh (same ▸ member)⟩
    · rw [others j dropped.2.1]

/-- The new scheduler of the caller is awaited. -/
theorem Core.phase_await (core : Core s) {caller : ι} {id pool : ℕ} (unused : s.Unused id)
    (first : (s.scheds id).pools.head? = some pool) (mine : s.pool caller = pool)
    (awake : ∀ u, s.blocked u = false) : Phase (s.await caller id) := by
  have apart : id ≠ s.mainSched := fun same => unused.2.2 (same ▸ core.mainGiven)
  refine .replacing id caller ?_ ?_ ?_ rfl (fun u => ?_) ?_
  · rw [State.main_await]
  · rw [State.main_await]
  · rw [State.main_await]
  · rcases eq_or_ne u caller with rfl | other
    · simp [State.await]
    · simp [State.await, other, awake u]
  · simpa [State.await, State.setSched, apart, mine] using first

theorem State.overwrite_of_none (noSched : s.main.replaceSched = none) : s.overwrite = some s := by
  rw [State.overwrite]
  split
  next => rfl
  next sched => cases noSched.symm.trans sched

/-- The effect of a request. -/
structure Requested (s t : State ι) (id : ℕ) : Prop where
  core : Core t
  phase : Phase t
  sched : t.main.replaceSched = some id
  mainPools : t.main.pools = s.main.pools
  pools : (t.scheds id).pools = (s.scheds id).pools
  pushed : (s.main.replaceSched = none ∧ t.pushed = none) ∨
    ∃ old waiter, s.main.replaceSched = some old ∧
      (s.scheds old).pools.head? = some (s.pool waiter) ∧ t.pushed = some (waiter, s.pool waiter)

theorem Core.requested (core : Core s) (phase : Phase s) {caller : ι} {id : ℕ}
    (unused : s.Unused id) (awake : s.blocked caller = false)
    (mine : s.pool caller ∈ s.main.pools) (quiet : s.pushed = none)
    (step : s.updateMainSched caller id true = some t) : Requested s t id := by
  have notMain : id ≠ s.mainSched := fun same => unused.2.2 (same ▸ core.mainGiven)
  rw [State.updateMainSched] at step
  split at step
  next => cases step
  next pool first =>
    rw [if_pos rfl, State.associate, if_pos mine] at step
    obtain ⟨overwritten, after, rfl⟩ := Option.map_eq_some_iff.mp step
    have associated : Core { s with pool := Function.update s.pool caller pool } :=
      ⟨core.accounts, core.created, core.mainGiven, core.live, core.pending, core.idle,
        core.owner, core.threadFreed, core.settled⟩
    cases phase with
    | running noSched noRequest last allAwake =>
        have same := State.overwrite_of_none
          (s := { s with pool := Function.update s.pool caller pool }) noSched
        obtain rfl := Option.some.inj (same.symm.trans after)
        refine ⟨associated.await noSched unused, associated.phase_await unused first (by simp)
          allAwake, by rw [State.main_await], by rw [State.main_await]; rfl, ?_,
          .inl ⟨noSched, quiet⟩⟩
        simp [State.await, State.setSched, notMain]
    | replacing old waiter sched waits request last asleep oldFirst =>
        have notCaller : waiter ≠ caller := by
          rintro rfl
          simp [(asleep waiter).mpr rfl] at awake
        obtain ⟨t, result, done⟩ := associated.overwritten sched waits
        obtain rfl := Option.some.inj (after.symm.trans result)
        have given := (core.pending old sched).1
        have same : overwritten.scheds id = s.scheds id := by
          refine done.others id notMain ?_
          rintro rfl
          exact unused.2.2 given
        have stillUnused : overwritten.Unused id := by
          refine ⟨done.numScheds ▸ unused.1, ?_, ?_⟩
          · rw [same]
            exact unused.2.1
          · rw [done.given]
            exact unused.2.2
        have cleared : overwritten.main.replaceSched = none := by rw [done.main]
        have written := associated.overwrite sched done
        refine ⟨written.await cleared stillUnused,
          written.phase_await stillUnused (by rw [same]; exact first) (by simp [done.pool]) ?_,
          by rw [State.main_await], by rw [State.main_await, done.main]; rfl, ?_,
          .inr ⟨old, waiter, sched, oldFirst, ?_⟩⟩
        · intro u
          rw [done.blocked]
          rcases eq_or_ne u waiter with rfl | other
          · simp
          · simpa [other] using (asleep u).not.mpr other
        · rw [← same]
          simp [State.await, State.setSched, done.mainSched, notMain]
        · exact done.pushed.trans (by simp [notCaller])

/-- The effect of a replacement. -/
structure Replaced (s t : State ι) (id : ℕ) (waiter : ι) : Prop where
  accounts : Accounts t.pools t.numPools t.scheds t.numScheds
  mainSched : t.mainSched = id
  given : t.given = s.given
  numScheds : t.numScheds = s.numScheds
  main : t.main = { s.scheds id with used := .main, ythread := s.main.ythread }
  others : ∀ j, j ≠ s.mainSched → j ≠ id → t.scheds j = s.scheds j
  ythread : (t.scheds s.mainSched).ythread = false
  automatic : ∀ j, (t.scheds j).automatic = (s.scheds j).automatic
  frees : t.frees = if s.main.automatic then s.mainSched :: s.frees else s.frees
  threadFreed : t.threadFreed = s.threadFreed
  blocked : t.blocked = Function.update s.blocked waiter false
  pushed : t.pushed = some (waiter, s.pool waiter)

theorem Core.replaced (core : Core s) {id : ℕ} {waiter : ι}
    (sched : s.main.replaceSched = some id) (waits : s.main.replaceWaiter = some waiter)
    (request : s.main.request = true) (step : s.mainSchedFunc = some t) :
    Replaced s t id waiter := by
  obtain ⟨given, apart, live⟩ := core.pending id sched
  simp only [State.mainSchedFunc, request, sched, waits, if_true, Option.some.injEq] at step
  subst step
  have moved : Accounts s.pools s.numPools
      (Function.update
        (Function.update s.scheds id { s.scheds id with used := .main, ythread := s.main.ythread })
        s.mainSched { s.main with ythread := false }) s.numScheds := by
    refine core.accounts.congr fun j _ => ?_
    rcases eq_or_ne j s.mainSched with rfl | notMain
    · simp [State.main]
    · rcases eq_or_ne j id with rfl | notNew
      · simp [notMain]
      · simp [notMain, notNew]
  constructor
  case accounts =>
    have mainLive : s.main.freed = false := core.live
    have discarded := State.accounts_discardAndFree
      (s := { s with
        mainSched := id
        scheds := Function.update
          (Function.update s.scheds id
            { s.scheds id with used := .main, ythread := s.main.ythread })
          s.mainSched { s.main with ythread := false } })
      moved (core.created _ core.mainGiven) (by simpa using mainLive)
    simpa [State.setSched, State.resumeAndPush, State.main, apart.symm] using discarded
  case main =>
    simp [State.setSched, State.resumeAndPush, State.main, State.discardAndFree_scheds, apart]
  case others =>
    intro j notMain notNew
    simp [State.setSched, State.resumeAndPush, State.discardAndFree_scheds, notMain, notNew]
  case ythread => simp [State.setSched, State.resumeAndPush, State.discardAndFree_scheds]
  case automatic =>
    intro j
    rcases eq_or_ne j s.mainSched with rfl | notMain
    · simp [State.setSched, State.resumeAndPush, State.discardAndFree_scheds, apart.symm]
    · rcases eq_or_ne j id with rfl | notNew
      · simp [State.setSched, State.resumeAndPush, State.discardAndFree_scheds, notMain]
      · simp [State.setSched, State.resumeAndPush, State.discardAndFree_scheds, notMain, notNew]
  case frees =>
    cases automatic : s.main.automatic <;>
      simpa [State.setSched, State.resumeAndPush, State.discardAndFree_frees, State.main,
        apart.symm] using automatic
  case threadFreed =>
    simp [State.setSched, State.resumeAndPush, State.discardAndFree_threadFreed]
  all_goals simp [State.setSched, State.resumeAndPush]

/-- The pending scheduler becomes the main one. -/
theorem Core.replace (core : Core s) {id : ℕ} {waiter : ι}
    (sched : s.main.replaceSched = some id) (done : Replaced s t id waiter) :
    Core t ∧ t.main.replaceSched = none ∧ t.main.request = false := by
  obtain ⟨given, apart, live⟩ := core.pending id sched
  obtain ⟨noSched, -, noRequest⟩ := core.idle id (core.created id given) (.inr sched)
  have cleared : t.main.replaceSched = none := by rw [done.main]; exact noSched
  refine ⟨⟨done.accounts, ?_, ?_, ?_, ?_, ?_, ?_, ?_, ?_⟩, cleared, by
    rw [done.main]
    exact noRequest⟩
  · rw [done.given, done.numScheds]
    exact core.created
  · rw [done.given, done.mainSched]
    exact given
  · rw [done.main]
    exact live
  · simp [cleared]
  · intro j created fresh
    have unused : j ∉ s.given := by simpa [cleared, done.given] using fresh
    have notMain : j ≠ s.mainSched := fun same => unused (same ▸ core.mainGiven)
    have notNew : j ≠ id := fun same => unused (same ▸ given)
    rw [done.others j notMain notNew]
    exact core.idle j (done.numScheds ▸ created) (.inl unused)
  · intro j
    rw [done.mainSched]
    rcases eq_or_ne j id with rfl | notNew
    · have mine : s.main.ythread = true := (core.owner s.mainSched).mpr rfl
      rw [← done.mainSched, ← State.main, done.main]
      simpa [done.mainSched] using mine
    · rcases eq_or_ne j s.mainSched with rfl | notMain
      · simp [done.ythread, notNew]
      · rw [done.others j notMain notNew]
        simpa [notMain, notNew] using (core.owner j).not.mpr notMain
  · rw [done.threadFreed, core.threadFreed]
  · have notDropped : ¬s.Dropped s.mainSched := fun dropped => dropped.2.1 rfl
    rw [done.frees]
    refine (core.settled.discard (fun j => Iff.rfl) notDropped).congr (fun j => ?_)
      fun j _ => done.automatic j
    simp only [State.Dropped, cleared, done.given, done.mainSched, sched]
    constructor
    · rintro ⟨member, notNew, -⟩
      rcases eq_or_ne j s.mainSched with rfl | notMain
      · exact .inr rfl
      · exact .inl ⟨member, notMain, by simpa using notNew.symm⟩
    · rintro (⟨member, -, notNew⟩ | rfl)
      · exact ⟨member, fun same => notNew (congrArg some same.symm), by simp⟩
      · exact ⟨core.mainGiven, apart.symm, by simp⟩

theorem Core.phase_replace (core : Core s) {id : ℕ} {waiter : ι}
    (sched : s.main.replaceSched = some id) (last : s.given.head? = some id)
    (asleep : ∀ u, s.blocked u = true ↔ u = waiter) (done : Replaced s t id waiter) : Phase t := by
  obtain ⟨-, noSched, noRequest⟩ := core.replace sched done
  refine .running noSched noRequest (by rw [done.given, done.mainSched, last]) fun u => ?_
  rw [done.blocked]
  rcases eq_or_ne u waiter with rfl | other
  · simp
  · simpa [other] using (asleep u).not.mpr other

end Steps

/-! ## Runs -/

section Runs

/-- The pool belongs to the main scheduler or to the one that is to become it. -/
def State.Serves (s : State ι) (p : ℕ) : Prop :=
  p ∈ s.main.pools ∨ ∃ id, s.main.replaceSched = some id ∧ p ∈ (s.scheds id).pools

/-- No caller is stranded, schedulers are freed as they should, and the last request
counts. -/
structure Safe (s : State ι) : Prop where
  pushed : ∀ u p, s.pushed = some (u, p) → (s.pools p).freed = false ∧ s.Serves p
  waits : ∀ u, s.blocked u = true → s.main.replaceWaiter = some u
  freed : ∀ id, s.Dropped id → (s.scheds id).automatic = true → s.frees.count id = 1
  kept : ∀ id, ¬(s.Dropped id ∧ (s.scheds id).automatic = true) → s.frees.count id = 0
  last : s.given.head? = some (s.main.replaceSched.getD s.mainSched)
  owner : ∀ id, (s.scheds id).ythread = true ↔ id = s.mainSched
  threadKept : s.threadFreed = false

/-- The first pool of a scheduler that is overwritten is one of the new scheduler or of the
running one. -/
def Undisturbed (s : State ι) : Event ι → Prop
  | .request _ id true => ∀ old ∈ s.main.replaceSched, ∀ p ∈ (s.scheds old).pools.head?,
      p ∈ (s.scheds id).pools ∨ p ∈ s.main.pools
  | _ => True

instance (s : State ι) : (event : Event ι) → Decidable (Undisturbed s event)
  | .request _ id true => inferInstanceAs (Decidable (∀ old ∈ s.main.replaceSched,
      ∀ p ∈ (s.scheds old).pools.head?, p ∈ (s.scheds id).pools ∨ p ∈ s.main.pools))
  | .request _ _ false => .isTrue trivial
  | .createPool _ => .isTrue trivial
  | .createSched _ _ => .isTrue trivial
  | .freeSched _ => .isTrue trivial
  | .stop => .isTrue trivial

/-- The invariant of the undisturbed runs. -/
structure Good (s : State ι) : Prop where
  core : Core s
  phase : Phase s
  pushed : ∀ u p, s.pushed = some (u, p) → s.Serves p

theorem Good.safe {s : State ι} (good : Good s) : Safe s where
  pushed u p same := by
    refine ⟨?_, good.pushed u p same⟩
    rcases good.pushed u p same with main | ⟨id, sched, member⟩
    · exact good.core.accounts.live (good.core.created _ good.core.mainGiven) good.core.live main
    · obtain ⟨given, -, live⟩ := good.core.pending id sched
      exact good.core.accounts.live (good.core.created id given) live member
  waits u asleep := by
    cases good.phase with
    | running _ _ _ awake => simp [awake u] at asleep
    | replacing id waiter _ waits _ _ only _ => rw [waits, (only u).mp asleep]
  freed := good.core.settled.freed
  kept := good.core.settled.kept
  last := by
    cases good.phase with
    | running noSched _ last _ => simpa [noSched] using last
    | replacing id _ sched _ _ last _ _ => simpa [sched] using last
  owner := good.core.owner
  threadKept := good.core.threadFreed

/-- Nothing that a stream looks at has changed but the last push. -/
theorem Core.quiet {s : State ι} (core : Core s) : Core { s with pushed := none } :=
  ⟨core.accounts, core.created, core.mainGiven, core.live, core.pending, core.idle, core.owner,
    core.threadFreed, core.settled⟩

theorem Phase.quiet {s : State ι} (phase : Phase s) : Phase { s with pushed := none } := by
  cases phase with
  | running noSched noRequest last awake => exact .running noSched noRequest last awake
  | replacing id waiter sched waits request last asleep first =>
      exact .replacing id waiter sched waits request last asleep first

/-- A change of pools, and of schedulers that the stream has not been given. -/
theorem Good.elsewhere {s t : State ι} (good : Good s)
    (accounts : Accounts t.pools t.numPools t.scheds t.numScheds)
    (more : s.numScheds ≤ t.numScheds) (same : ∀ id ∈ s.given, t.scheds id = s.scheds id)
    (fresh : ∀ id, id ∉ s.given → ((t.scheds id).ythread = false) ∧ (id < t.numScheds →
      (t.scheds id).replaceSched = none ∧ (t.scheds id).replaceWaiter = none ∧
        (t.scheds id).request = false))
    (thread : t.threadFreed = false) (mainSched : t.mainSched = s.mainSched)
    (given : t.given = s.given) (pool : t.pool = s.pool) (blocked : t.blocked = s.blocked)
    (frees : t.frees = s.frees) (quiet : t.pushed = none) : Good t := by
  have main : t.main = s.main := by
    rw [State.main, mainSched, same _ good.core.mainGiven, State.main]
  refine ⟨⟨accounts, ?_, ?_, ?_, ?_, ?_, ?_, thread, ?_⟩, ?_, by simp [quiet]⟩
  · rw [given]
    exact fun id member => (good.core.created id member).trans_le more
  · rw [given, mainSched]
    exact good.core.mainGiven
  · rw [main]
    exact good.core.live
  · intro id sched
    rw [main] at sched
    obtain ⟨member, apart, live⟩ := good.core.pending id sched
    rw [given, mainSched, same id member]
    exact ⟨member, apart, live⟩
  · intro id created which
    rw [main, given] at which
    by_cases member : id ∈ s.given
    · rw [same id member]
      exact good.core.idle id (good.core.created id member) (.inr (which.resolve_left (· member)))
    · exact (fresh id member).2 created
  · intro id
    rw [mainSched]
    by_cases member : id ∈ s.given
    · rw [same id member]
      exact good.core.owner id
    · have notMain : id ≠ s.mainSched := fun same => member (same ▸ good.core.mainGiven)
      simp [(fresh id member).1, notMain]
  · rw [frees]
    refine good.core.settled.congr (fun id => ?_) fun id dropped => ?_
    · rw [State.Dropped, main, given, mainSched, State.Dropped]
    · rw [same id dropped.1]
  · cases good.phase with
    | running noSched noRequest last awake =>
        exact .running (by rw [main, noSched]) (by rw [main, noRequest])
          (by rw [given, mainSched, last]) (by rwa [blocked])
    | replacing id waiter sched waits request last asleep first =>
        refine .replacing id waiter (by rw [main, sched]) (by rw [main, waits])
          (by rw [main, request]) (by rw [given, last]) (by rwa [blocked]) ?_
        rw [same id (good.core.pending id sched).1, pool, first]

theorem Starts.good {s : State ι} (starts : Starts s) : Good s := by
  obtain ⟨noSched, noWaiter, noRequest⟩ := starts.idle s.mainSched starts.created
  rw [← State.main] at noSched noRequest
  refine ⟨⟨starts.accounts, ?_, ?_, starts.live, ?_, fun id created _ => starts.idle id created,
    starts.owner, starts.threadFreed, ?_, ?_⟩, ?_, ?_⟩
  · intro id member
    rw [starts.given, List.mem_singleton] at member
    exact member ▸ starts.created
  · rw [starts.given]
    exact List.mem_singleton_self _
  · simp [noSched]
  · rintro id ⟨member, notMain, -⟩
    rw [starts.given, List.mem_singleton] at member
    exact absurd member notMain
  · simp [starts.frees]
  · exact .running noSched noRequest (by rw [starts.given]; rfl) starts.blocked
  · simp [starts.pushed]

variable [DecidableEq ι] {s t : State ι}

theorem Good.createSched (good : Good s) {pools : List ℕ} {automatic : Bool}
    (step : s.step (.createSched pools automatic) = some t) : Good t := by
  obtain ⟨live, step⟩ := Option.ite_none_right_eq_some.mp step
  obtain rfl := Option.some.inj step
  have notNew : ∀ id ∈ s.given, id ≠ s.numScheds := fun id member =>
    (good.core.created id member).ne
  refine good.elsewhere (good.core.accounts.createSched live automatic) (Nat.le_succ _)
    (fun id member => Function.update_of_ne (notNew id member) _ _) (fun id member => ?_)
    good.core.threadFreed rfl rfl rfl rfl rfl rfl
  rcases eq_or_ne id s.numScheds with rfl | old
  · simp [Sched.new]
  · have notMain : id ≠ s.mainSched := fun same => member (same ▸ good.core.mainGiven)
    simp only [Function.update_of_ne old]
    exact ⟨by simpa using (good.core.owner id).not.mpr notMain, fun created =>
      good.core.idle id (lt_of_le_of_ne (Nat.le_of_lt_succ created) old) (.inl member)⟩

theorem Good.freeSched (good : Good s) {id : ℕ} (step : s.step (.freeSched id) = some t) :
    Good t := by
  obtain ⟨⟨created, live, unused⟩, step⟩ := Option.ite_none_right_eq_some.mp step
  obtain rfl := Option.some.inj step
  have notThread : ∀ j, j ∉ s.given → (s.scheds j).ythread = false := fun j member => by
    have notMain : j ≠ s.mainSched := fun same => member (same ▸ good.core.mainGiven)
    simpa using (good.core.owner j).not.mpr notMain
  refine good.elsewhere (good.core.accounts.free _ created live rfl) le_rfl (fun j member => ?_)
    (fun j member => ?_) ?_ rfl rfl rfl rfl rfl rfl
  · have other : j ≠ id := by
      rintro rfl
      exact unused member
    simp [State.schedFree, other]
  · rcases eq_or_ne j id with rfl | other
    · simpa [State.schedFree] using fun within => good.core.idle j within (.inl member)
    · simp only [State.schedFree, Function.update_of_ne other]
      exact ⟨notThread j member, fun within => good.core.idle j within (.inl member)⟩
  · simp [State.schedFree, good.core.threadFreed, notThread id unused]

theorem Good.request (good : Good s) {caller : ι} {id : ℕ} {succeeds : Bool}
    (undisturbed : Undisturbed s (.request caller id succeeds))
    (step : s.step (.request caller id succeeds) = some t) : Good t := by
  obtain ⟨⟨unused, awake, mine⟩, step⟩ := Option.ite_none_right_eq_some.mp step
  have core := good.core.quiet
  have phase := good.phase.quiet
  cases succeeds with
  | false =>
      rw [State.updateMainSched] at step
      split at step
      next => cases step
      next =>
        obtain rfl := Option.some.inj step
        exact ⟨core, phase, nofun⟩
  | true =>
      have done := core.requested phase unused awake mine rfl step
      refine ⟨done.core, done.phase, fun u p pushed => ?_⟩
      rcases done.pushed with ⟨-, none⟩ | ⟨old, waiter, sched, first, some⟩
      · simp [none] at pushed
      · obtain ⟨rfl, rfl⟩ := Prod.mk.inj (Option.some.inj (some.symm.trans pushed))
        rcases undisturbed old sched _ first with new | main
        · exact .inr ⟨id, done.sched, by rw [done.pools]; exact new⟩
        · refine .inl ?_
          rw [done.mainPools]
          exact main

theorem Good.stop (good : Good s) (step : s.step .stop = some t) : Good t := by
  have core := good.core.quiet
  have phase := good.phase.quiet
  cases phase with
  | running noSched noRequest last awake =>
      have same : s.step .stop = some { s with pushed := none } := by
        simp only [State.step, State.mainSchedFunc, noRequest]
        rfl
      obtain rfl := Option.some.inj (same.symm.trans step)
      exact ⟨core, good.phase.quiet, nofun⟩
  | replacing id waiter sched waits request last asleep first =>
      have done := core.replaced sched waits request step
      refine ⟨(core.replace sched done).1, core.phase_replace sched last asleep done,
        fun u p pushed => .inl ?_⟩
      obtain ⟨rfl, rfl⟩ := Prod.mk.inj (Option.some.inj (done.pushed.symm.trans pushed))
      rw [done.main]
      exact List.mem_of_mem_head? first

theorem Good.step (good : Good s) {event : Event ι} (undisturbed : Undisturbed s event)
    (step : s.step event = some t) : Good t := by
  cases event with
  | createPool automatic =>
      obtain rfl := Option.some.inj step
      exact good.elsewhere (good.core.accounts.createPool automatic) le_rfl (fun _ _ => rfl)
        (fun id member => ⟨by
          have notMain : id ≠ s.mainSched := fun same => member (same ▸ good.core.mainGiven)
          simpa using (good.core.owner id).not.mpr notMain, fun within =>
            good.core.idle id within (.inl member)⟩) good.core.threadFreed rfl rfl rfl rfl rfl rfl
  | createSched pools automatic => exact good.createSched step
  | freeSched id => exact good.freeSched step
  | request caller id succeeds => exact good.request undisturbed step
  | stop => exact good.stop step

theorem Good.of_reachable (reachable : (streams ι).Reachable Undisturbed s) : Good s :=
  Machine.invariant Good (fun _ => Starts.good) (fun _ _ _ _ undisturbed good step =>
    good.step undisturbed step) reachable

/-- A request that is not undisturbed pushes the waiter where the stream does not look. -/
theorem Good.not_safe (good : Good s) {event : Event ι} (disturbed : ¬Undisturbed s event)
    (step : s.step event = some t) : ¬Safe t := by
  intro safe
  cases event with
  | request caller id succeeds =>
      cases succeeds with
      | false => exact disturbed trivial
      | true =>
          obtain ⟨⟨unused, awake, mine⟩, step⟩ := Option.ite_none_right_eq_some.mp step
          have done := good.core.quiet.requested good.phase.quiet unused awake mine rfl step
          refine disturbed fun old sched p first => ?_
          rcases done.pushed with ⟨none, -⟩ | ⟨old', waiter, sched', first', some⟩
          · cases none.symm.trans sched
          · obtain rfl := Option.some.inj (sched'.symm.trans sched)
            obtain rfl := Option.some.inj (first'.symm.trans first)
            obtain ⟨-, main | ⟨new, now, member⟩⟩ := safe.pushed _ _ some
            · refine .inr ?_
              rwa [done.mainPools] at main
            · obtain rfl := Option.some.inj (done.sched.symm.trans now)
              refine .inl ?_
              rwa [done.pools] at member
  | createPool _ | createSched _ _ | freeSched _ | stop => exact disturbed trivial

/-- **No caller is stranded as long as the first pool of every overwritten scheduler is one
of its successor or of the running scheduler.**  Any other request pushes the waiting
caller into a pool that is none of the stream's. -/
theorem replaced_safe (ι : Type u) [DecidableEq ι] :
    (∀ s, (streams ι).Reachable Undisturbed s → Safe s) ∧
      ∀ s event t, (streams ι).Reachable Undisturbed s → ¬Undisturbed s event →
        (streams ι).step s event = some t → ¬Safe t :=
  ⟨fun _ reachable => (Good.of_reachable reachable).safe, fun _ _ _ reachable disturbed step =>
    (Good.of_reachable reachable).not_safe disturbed step⟩

end Runs

/-! ## Two requests before the scheduler stops -/

section TwoRequests

/-- Two ULTs in the only pool of the main scheduler, which is not automatic. -/
def twoUlts : State (Fin 2) where
  pools p := ⟨p != 0, if p = 0 then 1 else 0, false⟩
  numPools := 1
  scheds id := { (Sched.new [0] true : Sched (Fin 2)) with used := .main, ythread := id == 0 }
  numScheds := 1
  mainSched := 0
  pool _ := 0
  blocked _ := false
  given := [0]
  frees := []
  threadFreed := false
  pushed := none

theorem starts_twoUlts : Starts twoUlts := by
  refine ⟨⟨fun p => ?_, nofun, fun id _ _ p member => ?_⟩, rfl, Nat.zero_lt_one, rfl,
    fun _ _ => ⟨rfl, rfl, rfl⟩, fun id => ?_, rfl, fun _ => rfl, rfl, rfl⟩
  · rw [holders]
    rcases eq_or_ne p 0 with rfl | other
    · rfl
    · simp [twoUlts, Sched.new, other, other.symm]
  · rw [List.mem_singleton.mp member]
    exact Nat.zero_lt_one
  · simp [twoUlts]

/-- Both ULTs ask for a scheduler with the same pool, and the second one gets it. -/
theorem replaced_safe_samePool :
    ∃ s : State (Fin 2), Safe s ∧ s.mainSched = 2 ∧ s.frees = [0, 1] := by
  obtain ⟨s, reachable, replaced⟩ := Machine.exists_reachable_of_play Undisturbed
    (M := streams (Fin 2)) starts_twoUlts
    [.createSched [0] true, .createSched [0] true, .request 0 1 true, .request 1 2 true, .stop]
    (fun s => s.mainSched = 2 ∧ s.frees = [0, 1]) (by decide)
  exact ⟨s, (replaced_safe (Fin 2)).1 s reachable, of_decide_eq_true replaced⟩

/-- **The first of two callers may be pushed into a pool that has been freed**, if each
scheduler has a pool of its own. -/
theorem not_replaced_safe :
    ¬∀ s, (streams (Fin 2)).Reachable Machine.anyEvent s → Safe s := by
  intro safe
  obtain ⟨s, reachable, stranded⟩ := Machine.exists_reachable_of_play Machine.anyEvent
    (M := streams (Fin 2)) starts_twoUlts
    [.createPool true, .createSched [1] true, .createPool true, .createSched [2] true,
      .request 0 1 true, .request 1 2 true]
    (fun s => s.pushed = some (0, 1) ∧ (s.pools 1).freed = true) (by decide)
  obtain ⟨pushed, freed⟩ := of_decide_eq_true stranded
  have kept := ((safe s reachable).pushed 0 1 pushed).1
  simp [freed] at kept

end TwoRequests

end ArgobotsReduction.Scheduling.MainSched
