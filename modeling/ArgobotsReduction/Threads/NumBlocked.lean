import Mathlib.Algebra.BigOperators.Group.Finset.Basic
import Mathlib.Algebra.Order.BigOperators.Group.Finset
import Mathlib.Algebra.BigOperators.Ring.Finset
import Mathlib.Tactic.Abel
import ArgobotsReduction.Threads.Shape

/-!
# The number of blocked threads of a pool

`num_blocked` of a pool should be the number of ULTs that wait outside it: those
that are blocked, or about to block, and that a resume pushes into that pool.  A
blocking callback increments the counter of the pool the ULT is in before its
requests are handled, and the resume decrements the counter of the pool it is in
then.  If a migration request is granted in between, one counter stays too high
and the other becomes too low.

Every primitive operation changes the difference of a counter and the number of
its waiting ULTs (`excess`) by a known amount.
-/

set_option autoImplicit false

namespace ArgobotsReduction.Threads

universe u v

variable {Ult : Type u} {Pool : Type v}

/-! ## What has to hold -/

/-- The ULT is blocked, or about to block with the counter incremented. -/
def Waits (y : Ythread Ult Pool) : Prop := y.state = .blocked ∨ y.callback ≠ none

instance (y : Ythread Ult Pool) : Decidable (Waits y) :=
  inferInstanceAs (Decidable (_ ∨ _))

/-- The number of ULTs that a resume will push into a pool. -/
def numWaiting [Fintype Ult] [DecidableEq Pool] (s : State Ult Pool) (pool : Pool) : ℕ :=
  (Finset.univ.filter fun u => Waits (s.ult u) ∧ (s.ult u).pool = pool).card

/-- The counters are exact, and so are the answers of schedulers that ask for
units. -/
structure Exact [Fintype Ult] [DecidableEq Pool] (s : State Ult Pool) : Prop where
  count : ∀ pool, s.numBlocked pool = numWaiting s pool
  nonneg : ∀ pool, 0 ≤ s.numBlocked pool
  zero : (∀ u, ¬Waits (s.ult u)) → ∀ pool, s.numBlocked pool = 0
  hasUnit : ∀ sched : Sched Pool, schedHasUnit s sched = true ↔ ∃ pool ∈ sched.pools,
    s.units pool ≠ [] ∨ sched.countsBlocked pool = true ∧
      ∃ u, Waits (s.ult u) ∧ (s.ult u).pool = pool

/-- If a ULT blocks and a migration is granted then, it is to the pool it is in. -/
def StaysInPool (s : State Ult Pool) (u : Ult) (migrates : Bool) : Prop :=
  (s.ult u).callback ≠ none → (s.ult u).reqMigrate = true → migrates = true →
    (s.ult u).migrationPool = (s.ult u).pool

/-- Exact counters make exact answers. -/
theorem Exact.of_count [Fintype Ult] [DecidableEq Pool] {s : State Ult Pool}
    (count : ∀ pool, s.numBlocked pool = numWaiting s pool) : Exact s where
  count := count
  nonneg pool := by
    rw [count]
    exact Int.natCast_nonneg _
  zero none pool := by
    rw [count, numWaiting, Finset.filter_false_of_mem, Finset.card_empty, Nat.cast_zero]
    exact fun u _ waits => none u waits.1
  hasUnit sched := by
    have some_waits : ∀ pool, s.numBlocked pool ≠ 0 ↔
        ∃ u, Waits (s.ult u) ∧ (s.ult u).pool = pool := by
      intro pool
      rw [count, Nat.cast_ne_zero, numWaiting, Finset.card_ne_zero, Finset.filter_nonempty_iff]
      simp
    simp only [schedHasUnit, List.any_eq_true, Bool.or_eq_true, Bool.and_eq_true, bne_iff_ne,
      some_waits, Bool.not_eq_true', List.isEmpty_eq_false_iff]

/-! ## Counters against waiting ULTs -/

section Excess

variable [DecidableEq Pool]

/-- What a ULT adds to the number of waiting ULTs of a pool. -/
def weight (y : Ythread Ult Pool) (pool : Pool) : ℤ := if Waits y ∧ y.pool = pool then 1 else 0

theorem weight_of_not_waits {y : Ythread Ult Pool} (idle : ¬Waits y) (pool : Pool) :
    weight y pool = 0 :=
  if_neg fun waits => idle waits.1

theorem weight_of_waits {y : Ythread Ult Pool} (waits : Waits y) (pool : Pool) :
    weight y pool = if y.pool = pool then 1 else 0 := by
  simp [weight, waits]

variable [Fintype Ult] {s : State Ult Pool} {u : Ult}

/-- By how much the counter of a pool is too high. -/
def excess (s : State Ult Pool) (pool : Pool) : ℤ := s.numBlocked pool - numWaiting s pool

theorem numWaiting_eq_sum (s : State Ult Pool) (pool : Pool) :
    (numWaiting s pool : ℤ) = ∑ u, weight (s.ult u) pool := by
  simp only [weight, numWaiting, Finset.sum_boole]

@[simp]
theorem excess_incNumBlocked (s : State Ult Pool) (pool other : Pool) :
    excess (s.incNumBlocked pool) other = excess s other + if pool = other then 1 else 0 := by
  change Function.update s.numBlocked pool (s.numBlocked pool + 1) other - numWaiting s other = _
  rcases eq_or_ne pool other with rfl | different
  · rw [Function.update_self, if_pos rfl, excess]
    abel
  · rw [Function.update_of_ne different.symm, if_neg different, add_zero, excess]

@[simp]
theorem excess_decNumBlocked (s : State Ult Pool) (pool other : Pool) :
    excess (s.decNumBlocked pool) other = excess s other - if pool = other then 1 else 0 := by
  change Function.update s.numBlocked pool (s.numBlocked pool - 1) other - numWaiting s other = _
  rcases eq_or_ne pool other with rfl | different
  · rw [Function.update_self, if_pos rfl, excess]
    abel
  · rw [Function.update_of_ne different.symm, if_neg different, sub_zero, excess]

@[simp]
theorem excess_push (s : State Ult Pool) (pool other : Pool) (u : Ult) :
    excess (s.push pool u) other = excess s other := rfl

variable [DecidableEq Ult]

@[simp]
theorem excess_remove (s : State Ult Pool) (pool other : Pool) (u : Ult) :
    excess (s.remove pool u) other = excess s other := rfl

/-- **A change of one ULT shifts the excess by what that ULT adds.** -/
theorem excess_modify (s : State Ult Pool) (u : Ult) (f : Ythread Ult Pool → Ythread Ult Pool)
    (pool : Pool) :
    excess (s.modify u f) pool =
      excess s pool + weight (s.ult u) pool - weight (f (s.ult u)) pool := by
  have others : ∑ t ∈ Finset.univ.erase u, weight ((s.modify u f).ult t) pool =
      ∑ t ∈ Finset.univ.erase u, weight (s.ult t) pool :=
    Finset.sum_congr rfl fun t member => by
      rw [State.modify_of_ne (Finset.ne_of_mem_erase member)]
  rw [excess, excess, numWaiting_eq_sum, numWaiting_eq_sum,
    ← Finset.add_sum_erase _ _ (Finset.mem_univ u), others, State.modify_self,
    ← Finset.add_sum_erase _ (fun t => weight (s.ult t) pool) (Finset.mem_univ u)]
  change s.numBlocked pool - _ = s.numBlocked pool - _ + _ - _
  abel

/-- Changes that leave a ULT waiting, or not waiting, in its pool. -/
theorem excess_modify_same {f : Ythread Ult Pool → Ythread Ult Pool}
    (waits : Waits (f (s.ult u)) ↔ Waits (s.ult u)) (samePool : (f (s.ult u)).pool = (s.ult u).pool)
    (pool : Pool) : excess (s.modify u f) pool = excess s pool := by
  rw [excess_modify, weight, weight, samePool]
  simp [waits]

/-- Changes of a ULT that does not wait, before or after. -/
theorem excess_modify_idle {f : Ythread Ult Pool → Ythread Ult Pool} (before : ¬Waits (s.ult u))
    (after : ¬Waits (f (s.ult u))) (pool : Pool) : excess (s.modify u f) pool = excess s pool := by
  rw [excess_modify, weight_of_not_waits before, weight_of_not_waits after, add_zero, sub_zero]

theorem excess_addThread (idle : (s.ult u).callback = none) (pool : Pool) :
    excess (s.addThread u) pool = excess s pool + weight (s.ult u) pool := by
  have after : ¬Waits { s.ult u with state := .ready } := by simp [Waits, idle]
  rw [State.addThread, excess_push, excess_modify, weight_of_not_waits after, sub_zero]

/-- **A resume decrements the counter of the pool that it pushes to.** -/
theorem excess_resumeAndPush (blocked : (s.ult u).state = .blocked)
    (idle : (s.ult u).callback = none) (pool : Pool) :
    excess (s.resumeAndPush u) pool = excess s pool := by
  rw [State.resumeAndPush, excess_decNumBlocked, excess_addThread idle,
    weight_of_waits (Or.inl blocked)]
  exact add_sub_cancel_right _ _

end Excess

/-! ## Ending and yielding -/

section Ending

variable [DecidableEq Ult] [DecidableEq Pool] {s after resumed : State Ult Pool} {u : Ult}

theorem handleRequest_cases {migrates : Bool} {handled : Handled}
    (handles : handleRequest true migrates s u = some (after, handled)) :
    handled = .none ∧ after = s ∨ handled = .migrated ∧ after = s.migrate u ∨
      handled = .cancelled ∧ ∃ resumed, s.resumeJoiner u = some resumed ∧
        after = resumed.terminate u := by
  rw [handleRequest] at handles
  split at handles
  · obtain ⟨resumed, resumes, same⟩ := Option.map_eq_some_iff.mp handles
    obtain ⟨rfl, rfl⟩ := Prod.mk.inj same
    exact Or.inr (Or.inr ⟨rfl, resumed, resumes, rfl⟩)
  · split at handles
    · obtain ⟨rfl, rfl⟩ := Prod.mk.inj (Option.some.inj handles)
      exact Or.inr (Or.inl ⟨rfl, rfl⟩)
    · obtain ⟨rfl, rfl⟩ := Prod.mk.inj (Option.some.inj handles)
      exact Or.inl ⟨rfl, rfl⟩

variable [Fintype Ult]

/-- What an operation by a ULT keeps: the shape, the excess, and all other ULTs but
its joiner. -/
structure Keeps (u : Ult) (s after : State Ult Pool) : Prop where
  shape : Shape none after
  excess : ∀ pool, excess after pool = excess s pool
  others : ∀ t, t ≠ u → ¬Joins none s u t → after.ult t = s.ult t

theorem Keeps.addThread (keeps : Keeps u s after) (live : (after.ult u).state ≠ .terminated)
    (idle : ¬Waits (after.ult u)) (absent : ∀ pool, u ∉ after.units pool) :
    Keeps u s (after.addThread u) where
  shape := keeps.shape.addThread live (not_not.mp fun inCallback => idle (Or.inr inCallback)) absent
    (keeps.shape.not_joins fun blocked => idle (Or.inl blocked))
  excess pool := by
    rw [excess_addThread (not_not.mp fun inCallback => idle (Or.inr inCallback)),
      weight_of_not_waits idle, add_zero, keeps.excess]
  others t different free := by
    rw [State.addThread_of_ne different]
    exact keeps.others t different free

/-- **A ULT that ends resumes its joiner and is terminated.** -/
theorem Shape.resumeJoiner_terminate (shape : Shape none s)
    (live : (s.ult u).state ≠ .terminated) (idle : ¬Waits (s.ult u))
    (absent : ∀ pool, u ∉ s.units pool) (resumes : s.resumeJoiner u = some resumed) :
    Keeps u s (resumed.terminate u) := by
  have notBlocked : (s.ult u).state ≠ .blocked := fun blocked => idle (Or.inl blocked)
  have noCallback : (s.ult u).callback = none := not_not.mp fun inCallback =>
    idle (Or.inr inCallback)
  have dead : ¬Waits { s.ult u with state := .terminated } := by simp [Waits, noCallback]
  rw [State.resumeJoiner] at resumes
  cases linked : (s.ult u).link with
  | none =>
      simp only [linked, Option.ite_none_left_eq_some, Option.some.injEq] at resumes
      obtain ⟨-, rfl⟩ := resumes
      have flagged : Shape none (s.modify u fun y => { y with reqJoin := true }) :=
        shape.modify_flags rfl rfl rfl rfl
      constructor
      · apply (flagged.begin_end u).terminate
        · exact absent
        · rw [State.modify_self]
          exact noCallback
        · rw [State.modify_self]
          exact notBlocked
      · intro pool
        rw [State.terminate, excess_modify_idle, excess_modify_same Iff.rfl rfl]
        · rw [State.modify_self]
          exact idle
        · rw [State.modify_self]
          exact dead
      · intro t different _
        rw [State.terminate, State.modify_of_ne different, State.modify_of_ne different]
  | some joiner =>
      simp only [linked, Option.some.injEq] at resumes
      obtain rfl := resumes
      have joins : Joins none s u joiner := ⟨live, Option.some_ne_none _, linked⟩
      have blocked := shape.joiner u joiner joins
      have different : u ≠ joiner := by
        rintro rfl
        exact notBlocked blocked
      have same : (s.resumeAndPush joiner).ult u = s.ult u := State.addThread_of_ne different
      have free : ∀ target, ¬Joins (some u) s target joiner := by
        rintro target ⟨targetLive, notDying, targetLinked⟩
        exact notDying (congrArg some
          (shape.unique target u joiner ⟨targetLive, Option.some_ne_none _, targetLinked⟩ joins))
      have joinerIdle := shape.callback_none (u := joiner) (by simp [blocked])
      have pushed : Shape (some u) (s.resumeAndPush joiner) :=
        ((shape.begin_end u).addThread (by simp [blocked]) joinerIdle
          (shape.notMem_units (by simp [blocked])) free).counters rfl rfl
      constructor
      · apply pushed.terminate
        · intro pool member
          rcases State.mem_units_addThread member with before | isJoiner
          · exact absent pool before
          · exact different isJoiner
        · rw [same]
          exact noCallback
        · rw [same]
          exact notBlocked
      · intro pool
        rw [State.terminate, excess_modify_idle, excess_resumeAndPush blocked joinerIdle]
        · rw [same]
          exact idle
        · rw [same]
          exact dead
      · intro t notSelf notJoined
        rw [State.terminate, State.modify_of_ne notSelf]
        exact State.addThread_of_ne fun isJoiner => notJoined (isJoiner ▸ joins)

/-- A ULT that does not wait may be migrated. -/
theorem Shape.keeps_migrate (shape : Shape none s) (idle : ¬Waits (s.ult u))
    (absent : ∀ pool, u ∉ s.units pool) : Keeps u s (s.migrate u) where
  shape := shape.migrate absent
  excess := excess_modify_idle idle idle
  others _ different _ := State.modify_of_ne different

/-- **Yielding keeps the shape and the excess.** -/
theorem Shape.callbackYield {migrates : Bool} (shape : Shape none s) (runs : Runs s u)
    (yields : callbackYield migrates s u = some after) : Keeps u s after := by
  obtain ⟨running, noCallback⟩ := runs
  have live : (s.ult u).state ≠ .terminated := by simp [running]
  have idle : ¬Waits (s.ult u) := by simp [Waits, running, noCallback]
  have absent := shape.notMem_units (u := u) (by simp [running])
  obtain ⟨⟨handled, result⟩, handles, rfl⟩ := Option.map_eq_some_iff.mp yields
  rcases handleRequest_cases handles with
    ⟨rfl, rfl⟩ | ⟨rfl, rfl⟩ | ⟨rfl, resumed, resumes, rfl⟩
  · exact Keeps.addThread ⟨shape, fun _ => rfl, fun _ _ _ => rfl⟩ live idle absent
  · refine (shape.keeps_migrate idle absent).addThread ?_ ?_ absent
    · rw [State.migrate, State.modify_self]
      exact live
    · rw [State.migrate, State.modify_self]
      exact idle
  · exact shape.resumeJoiner_terminate live idle absent resumes

end Ending

end ArgobotsReduction.Threads
