import Mathlib.Algebra.BigOperators.Group.Finset.Basic
import Mathlib.Algebra.Order.BigOperators.Group.Finset
import Mathlib.Data.Set.Finite.Lemmas
import Mathlib.Logic.Relation
import Mathlib.Order.WellFounded

/-!
# Parties that share a memory, a barrier and a mutex

Finitely many parties run fixed codes over one shared memory.  A code is a list
of instructions: an action on the memory, a wait at the barrier, and the two
ends of a critical section.  Actions are syntax; an interpretation says what
each of them does to the memory in one atomic step.

A party that waits has arrived at the barrier and leaves it only when every
party has arrived at the same round.  Nothing else orders the parties, except a
policy that may forbid a party its next move in some states.

The results:

* `Step.work_lt` — every step consumes work, so every run is finite
  (`step_wellFounded`);
* `Invariant.steps` — the barrier and mutex invariant holds in every reachable
  state;
* `Invariant.exists_enabled` — an unfinished reachable state always has an
  enabled party: no deadlock;
* `Ensures.of_result` — what holds at the end of every finished run is ensured,
  under every policy that never forbids all the enabled parties.
-/

set_option autoImplicit false

namespace Parallel

universe u v w

/-- One instruction of a party. -/
inductive Instr (A : Type u) where
  | act (action : A)
  | wait
  | lock
  | unlock
  deriving DecidableEq, Repr

abbrev Code (A : Type u) := List (Instr A)

namespace Code

variable {A : Type u}

/-- The number of barrier waits of a code. -/
def waits : Code A → ℕ
  | [] => 0
  | .wait :: rest => waits rest + 1
  | .act _ :: rest | .lock :: rest | .unlock :: rest => waits rest

/-- The actions a code takes in a round, counted from its first wait on. -/
def actions : Code A → ℕ → List A
  | [], _ => []
  | .act action :: rest, 0 => action :: actions rest 0
  | .act _ :: rest, round + 1 => actions rest (round + 1)
  | .wait :: _, 0 => []
  | .wait :: rest, round + 1 => actions rest round
  | .lock :: rest, round | .unlock :: rest, round => actions rest round

/-- Critical sections are closed and hold actions only.  The flag says whether
the code starts inside one. -/
def Disciplined : Bool → Code A → Prop
  | false, [] => True
  | true, [] => False
  | inside, .act _ :: rest => Disciplined inside rest
  | false, .wait :: rest => Disciplined false rest
  | true, .wait :: _ => False
  | false, .lock :: rest => Disciplined true rest
  | true, .lock :: _ => False
  | true, .unlock :: rest => Disciplined false rest
  | false, .unlock :: _ => False

@[simp] theorem waits_nil : waits ([] : Code A) = 0 := rfl

@[simp] theorem waits_act (action : A) (rest : Code A) :
    waits (.act action :: rest) = waits rest := rfl

@[simp] theorem waits_wait (rest : Code A) : waits (.wait :: rest) = waits rest + 1 := rfl

@[simp] theorem waits_lock (rest : Code A) : waits (.lock :: rest) = waits rest := rfl

@[simp] theorem waits_unlock (rest : Code A) : waits (.unlock :: rest) = waits rest := rfl

@[simp] theorem waits_append (first second : Code A) :
    waits (first ++ second) = waits first + waits second := by
  induction first with
  | nil => simp
  | cons instr rest ih => cases instr <;> simp [ih, Nat.add_right_comm]

@[simp] theorem waits_map_act (items : List A) : waits (items.map .act) = 0 := by
  induction items with
  | nil => rfl
  | cons item items ih => simpa using ih

@[simp] theorem actions_nil (round : ℕ) : actions ([] : Code A) round = [] := by
  cases round <;> rfl

@[simp] theorem actions_act_zero (action : A) (rest : Code A) :
    actions (.act action :: rest) 0 = action :: actions rest 0 := rfl

@[simp] theorem actions_act_succ (action : A) (rest : Code A) (round : ℕ) :
    actions (.act action :: rest) (round + 1) = actions rest (round + 1) := rfl

@[simp] theorem actions_wait_zero (rest : Code A) : actions (.wait :: rest) 0 = [] := rfl

@[simp] theorem actions_wait_succ (rest : Code A) (round : ℕ) :
    actions (.wait :: rest) (round + 1) = actions rest round := rfl

@[simp] theorem actions_lock (rest : Code A) (round : ℕ) :
    actions (.lock :: rest) round = actions rest round := by cases round <;> rfl

@[simp] theorem actions_unlock (rest : Code A) (round : ℕ) :
    actions (.unlock :: rest) round = actions rest round := by cases round <;> rfl

/-- A code takes no action after its last round. -/
theorem actions_eq_nil {code : Code A} {round : ℕ} (past : code.waits < round) :
    code.actions round = [] := by
  induction code generalizing round with
  | nil => simp
  | cons instr rest ih =>
      cases instr with
      | act action =>
          obtain ⟨round, rfl⟩ : ∃ r, round = r + 1 := ⟨round - 1, by omega⟩
          simpa using ih (by simpa using past)
      | wait =>
          obtain ⟨round, rfl⟩ : ∃ r, round = r + 1 := ⟨round - 1, by omega⟩
          simpa using ih (by simpa using past)
      | lock => simpa using ih (by simpa using past)
      | unlock => simpa using ih (by simpa using past)

/-- In a run of actions with no wait in front, the first round starts with them. -/
@[simp] theorem actions_map_append_zero (items : List A) (rest : Code A) :
    actions (items.map .act ++ rest) 0 = items ++ actions rest 0 := by
  induction items with
  | nil => simp
  | cons item items ih => simpa using ih

@[simp] theorem actions_map_append_succ (items : List A) (rest : Code A) (round : ℕ) :
    actions (items.map .act ++ rest) (round + 1) = actions rest (round + 1) := by
  induction items with
  | nil => simp
  | cons item items ih => simpa using ih

@[simp] theorem actions_map_zero (items : List A) : actions (items.map .act) 0 = items := by
  simpa using actions_map_append_zero items []

theorem disciplined_map_append (items : List A) {inside : Bool} {rest : Code A}
    (disciplined : Disciplined inside rest) : Disciplined inside (items.map .act ++ rest) := by
  induction items with
  | nil => simpa using disciplined
  | cons item items ih => cases inside <;> simpa [Disciplined] using ih

theorem disciplined_map (items : List A) : Disciplined false (items.map Instr.act) := by
  induction items with
  | nil => trivial
  | cons item items ih => simpa [Disciplined] using ih

end Code

/-! ## States and moves -/

/-- A state of the whole system: the memory, what each party has still to do,
how many barrier rounds it has left and whether it waits in the next one, and
who holds the mutex. -/
structure Config (ι : Type v) (A : Type u) (σ : Type w) where
  memory : σ
  code : ι → Code A
  passed : ι → ℕ
  waiting : ι → Bool
  holder : Option ι

variable {ι : Type v} {A : Type u} {σ : Type w}

namespace Config

/-- All parties at the start of their codes. -/
def start (memory : σ) (code : ι → Code A) : Config ι A σ :=
  ⟨memory, code, fun _ => 0, fun _ => false, none⟩

/-- The number of barrier rounds a party has arrived at. -/
def arrived (c : Config ι A σ) (t : ι) : ℕ := c.passed t + (c.waiting t).toNat

/-- Every party has come to the end of its code. -/
def Finished (c : Config ι A σ) : Prop := ∀ t, c.code t = []

/-- The actions a party has still to take in a round. -/
def remaining (c : Config ι A σ) (t : ι) (round : ℕ) : List A :=
  if round < c.passed t then [] else (c.code t).actions (round - c.passed t)

theorem remaining_start (memory : σ) (code : ι → Code A) (t : ι) (round : ℕ) :
    (start memory code).remaining t round = (code t).actions round := by
  simp [remaining, start]

theorem Finished.remaining {c : Config ι A σ} (finished : c.Finished) (t : ι) (round : ℕ) :
    c.remaining t round = [] := by
  simp [Config.remaining, finished t]

end Config

variable [DecidableEq ι]

/-- One move of a party. -/
inductive Move (exec : A → σ → σ) (t : ι) : Config ι A σ → Config ι A σ → Prop where
  | act {c : Config ι A σ} {action : A} {rest : Code A}
      (next : c.code t = .act action :: rest) :
      Move exec t c
        { c with memory := exec action c.memory, code := Function.update c.code t rest }
  | arrive {c : Config ι A σ} {rest : Code A} (next : c.code t = .wait :: rest)
      (outside : c.waiting t = false) :
      Move exec t c { c with waiting := Function.update c.waiting t true }
  | leave {c : Config ι A σ} {rest : Code A} (next : c.code t = .wait :: rest)
      (inside : c.waiting t = true) (all : ∀ u, c.passed t + 1 ≤ c.arrived u) :
      Move exec t c
        { c with
          code := Function.update c.code t rest
          passed := Function.update c.passed t (c.passed t + 1)
          waiting := Function.update c.waiting t false }
  | lock {c : Config ι A σ} {rest : Code A} (next : c.code t = .lock :: rest)
      (free : c.holder = none) :
      Move exec t c { c with code := Function.update c.code t rest, holder := some t }
  | unlock {c : Config ι A σ} {rest : Code A} (next : c.code t = .unlock :: rest)
      (held : c.holder = some t) :
      Move exec t c { c with code := Function.update c.code t rest, holder := none }

/-- Which party may move in which state. -/
abbrev Policy (ι : Type v) (A : Type u) (σ : Type w) := Config ι A σ → ι → Prop

/-- The policy that lets every party move. -/
def Policy.free : Policy ι A σ := fun _ _ => True

/-- One step of the system under a policy. -/
def Step (exec : A → σ → σ) (may : Policy ι A σ) (c d : Config ι A σ) : Prop :=
  ∃ t, may c t ∧ Move exec t c d

/-- Finitely many steps. -/
abbrev Steps (exec : A → σ → σ) (may : Policy ι A σ) : Config ι A σ → Config ι A σ → Prop :=
  Relation.ReflTransGen (Step exec may)

/-- A policy that forbids less has more runs. -/
theorem Steps.mono {exec : A → σ → σ} {may more : Policy ι A σ}
    (weaker : ∀ c t, may c t → more c t) {c d : Config ι A σ} (run : Steps exec may c d) :
    Steps exec more c d :=
  Relation.ReflTransGen.mono
    (fun _ _ ⟨t, allowed, move⟩ => ⟨t, weaker _ t allowed, move⟩) _ _ run

/-! ## Every run is finite -/

section Termination

variable [Fintype ι]

/-- The work a state has left. -/
def Config.work (c : Config ι A σ) : ℕ :=
  ∑ t, (2 * (c.code t).length - (c.waiting t).toNat)

theorem Move.work_lt {exec : A → σ → σ} {t : ι} {c d : Config ι A σ} (move : Move exec t c d) :
    d.work < c.work := by
  have others : ∀ u, u ≠ t → d.code u = c.code u ∧ d.waiting u = c.waiting u := by
    intro u different
    cases move <;> simp [Function.update_of_ne different]
  have own : 2 * (d.code t).length - (d.waiting t).toNat <
      2 * (c.code t).length - (c.waiting t).toNat := by
    have few := Bool.toNat_le (c.waiting t)
    have shorter : ∀ {instr : Instr A} {rest : Code A}, c.code t = instr :: rest →
        (c.code t).length = rest.length + 1 := fun next => by rw [next, List.length_cons]
    cases move with
    | act next =>
        have length := shorter next
        simp only [Function.update_self]
        omega
    | arrive next outside =>
        have length := shorter next
        simp only [Function.update_self, outside, Bool.toNat_true, Bool.toNat_false]
        omega
    | leave next inside all =>
        have length := shorter next
        simp only [Function.update_self, inside, Bool.toNat_true, Bool.toNat_false]
        omega
    | lock next free =>
        have length := shorter next
        simp only [Function.update_self]
        omega
    | unlock next held =>
        have length := shorter next
        simp only [Function.update_self]
        omega
  refine Finset.sum_lt_sum (fun u _ => ?_) ⟨t, Finset.mem_univ t, own⟩
  by_cases same : u = t
  · subst same
    exact own.le
  · rw [(others u same).1, (others u same).2]

theorem Step.work_lt {exec : A → σ → σ} {may : Policy ι A σ} {c d : Config ι A σ}
    (step : Step exec may c d) : d.work < c.work := by
  obtain ⟨t, -, move⟩ := step
  exact move.work_lt

/-- **Every run is finite**, under any policy and from any state. -/
theorem step_wellFounded (exec : A → σ → σ) (may : Policy ι A σ) :
    WellFounded fun d c : Config ι A σ => Step exec may c d :=
  Subrelation.wf (fun step => step.work_lt) (measure Config.work).wf

end Termination

/-! ## The barrier and mutex invariant -/

/-- What holds of every state reached from the start of the given codes. -/
structure Invariant (code : ι → Code A) (c : Config ι A σ) : Prop where
  headed : ∀ t, c.waiting t = true → ∃ rest, c.code t = .wait :: rest
  together : ∀ t u, c.passed t ≤ c.arrived u
  rounds : ∀ t, c.passed t + (c.code t).waits = (code t).waits
  suffix : ∀ t round, c.remaining t round <:+ (code t).actions round
  critical : (∀ t, Code.Disciplined false (code t)) →
    ∀ t, Code.Disciplined (decide (c.holder = some t)) (c.code t)

theorem Invariant.start (memory : σ) (code : ι → Code A) :
    Invariant code (Config.start memory code) where
  headed := fun t inside => by simp [Config.start] at inside
  together := fun _ _ => Nat.zero_le _
  rounds := fun t => by simp [Config.start]
  suffix := fun t round => by rw [Config.remaining_start]
  critical := fun disciplined t => by simpa [Config.start] using disciplined t

/-- A move of one party leaves what the others have to do as it was. -/
theorem Move.remaining_of_ne {exec : A → σ → σ} {t u : ι} {c d : Config ι A σ}
    (move : Move exec t c d) (different : u ≠ t) (round : ℕ) :
    d.remaining u round = c.remaining u round := by
  cases move <;> simp [Config.remaining, Function.update_of_ne different]

/-- What the mover has still to do: an action is taken off the front of its
round, and no other move changes any round. -/
theorem Move.remaining_self {exec : A → σ → σ} {t : ι} {c d : Config ι A σ}
    (move : Move exec t c d) (round : ℕ) :
    (∃ action, c.remaining t round = action :: d.remaining t round ∧ round = c.passed t ∧
        d.memory = exec action c.memory) ∨
      c.remaining t round = d.remaining t round := by
  cases move with
  | @act action rest next =>
      by_cases here : round = c.passed t
      · subst here
        exact .inl ⟨action, by simp [Config.remaining, next], rfl, rfl⟩
      · refine .inr ?_
        by_cases past : round < c.passed t
        · simp [Config.remaining, past]
        · obtain ⟨later, same⟩ : ∃ k, round - c.passed t = k + 1 :=
            ⟨round - c.passed t - 1, by omega⟩
          simp [Config.remaining, past, next, same]
  | arrive next outside => exact .inr rfl
  | leave next inside all =>
      refine .inr ?_
      rcases lt_trichotomy round (c.passed t) with past | here | later
      · simp [Config.remaining, past, Nat.lt_succ_of_lt past]
      · subst here
        simp [Config.remaining, next]
      · obtain ⟨more, rfl⟩ : ∃ k, round = c.passed t + 1 + k := ⟨round - (c.passed t + 1), by omega⟩
        have before : ¬ c.passed t + 1 + more < c.passed t := by omega
        have shift : c.passed t + 1 + more - c.passed t = more + 1 := by omega
        have after : ¬ c.passed t + 1 + more < c.passed t + 1 := by omega
        simp only [Config.remaining, next, Function.update_self, if_neg before, if_neg after,
          shift, Code.actions_wait_succ, Nat.add_sub_cancel_left]
  | lock next free => exact .inr (by simp [Config.remaining, next])
  | unlock next held => exact .inr (by simp [Config.remaining, next])

/-- A move that is not an action leaves what every party has to do as it was. -/
theorem Move.remaining_of_not_act {exec : A → σ → σ} {t : ι} {c d : Config ι A σ}
    (move : Move exec t c d) (notAct : ∀ action rest, c.code t ≠ .act action :: rest)
    (u : ι) (round : ℕ) :
    d.remaining u round = c.remaining u round := by
  by_cases same : u = t
  · subst same
    rcases move.remaining_self round with ⟨action, taken, here, -⟩ | kept
    · cases move with
      | act next => exact absurd next (notAct _ _)
      | arrive next outside => rfl
      | leave next inside all =>
          rw [here] at taken
          simp [Config.remaining, next] at taken
      | lock next free => simp [Config.remaining, next]
      | unlock next held => simp [Config.remaining, next]
    · exact kept.symm
  · exact move.remaining_of_ne same round

theorem Move.suffix {exec : A → σ → σ} {t : ι} {c d : Config ι A σ} (move : Move exec t c d)
    (u : ι) (round : ℕ) : d.remaining u round <:+ c.remaining u round := by
  by_cases same : u = t
  · subst same
    rcases move.remaining_self round with ⟨action, taken, -, -⟩ | unchanged
    · rw [taken]
      exact List.suffix_cons _ _
    · rw [unchanged]
  · rw [move.remaining_of_ne same]

theorem Invariant.move {code : ι → Code A} {exec : A → σ → σ} {t : ι} {c d : Config ι A σ}
    (invariant : Invariant code c) (move : Move exec t c d) : Invariant code d := by
  have suffix : ∀ u round, d.remaining u round <:+ (code u).actions round := fun u round =>
    (move.suffix u round).trans (invariant.suffix u round)
  -- a party that takes an instruction other than a wait is outside the barrier
  have outside : ∀ instr rest, c.code t = instr :: rest → instr ≠ .wait →
      c.waiting t = false := by
    intro instr rest next notWait
    by_contra inside
    obtain ⟨_, same⟩ := invariant.headed t (by simpa using inside)
    rw [next] at same
    exact notWait (List.cons.inj same).1
  refine ⟨?_, ?_, ?_, suffix, ?_⟩
  · intro u inside
    by_cases same : u = t
    · subst same
      cases move with
      | act next => simp [outside _ _ next (by simp)] at inside
      | arrive next _ => exact ⟨_, next⟩
      | leave next _ _ => simp at inside
      | lock next _ => simp [outside _ _ next (by simp)] at inside
      | unlock next _ => simp [outside _ _ next (by simp)] at inside
    · cases move <;> simp only [Function.update_of_ne same] at inside ⊢ <;>
        exact invariant.headed u inside
  · intro u v
    have before := invariant.together u v
    cases move with
    | act next => exact before
    | arrive next out =>
        by_cases same : v = t
        · subst same
          simp only [Config.arrived, out, Bool.toNat_false, Function.update_self,
            Bool.toNat_true] at before ⊢
          omega
        · simpa only [Config.arrived, Function.update_of_ne same] using before
    | leave next inside all =>
        have bound : c.passed u ≤ c.arrived v ∧ c.passed t + 1 ≤ c.arrived v :=
          ⟨before, all v⟩
        have kept : c.arrived v ≤ (Function.update c.passed t (c.passed t + 1)) v +
            ((Function.update c.waiting t false) v).toNat := by
          by_cases same : v = t
          · subst same
            simp [Config.arrived, inside]
          · simp [Config.arrived, Function.update_of_ne same]
        refine le_trans ?_ kept
        by_cases same : u = t
        · subst same
          simpa using bound.2
        · simpa [Function.update_of_ne same] using bound.1
    | lock next _ => exact before
    | unlock next _ => exact before
  · intro u
    have before := invariant.rounds u
    by_cases same : u = t
    · subst same
      cases move with
      | act next => simpa [next] using before
      | arrive next _ => exact before
      | leave next _ _ => simp [next] at before; simp; omega
      | lock next _ => simpa [next] using before
      | unlock next _ => simpa [next] using before
    · cases move <;> simpa [Function.update_of_ne same] using before
  · intro disciplined u
    have before := invariant.critical disciplined u
    have mover := invariant.critical disciplined t
    by_cases same : u = t
    · subst same
      cases move with
      | act next =>
          rw [next] at mover
          cases held : decide (c.holder = some u) <;> simpa [held, Code.Disciplined] using mover
      | arrive next _ => exact before
      | leave next _ _ =>
          rw [next] at mover
          cases held : decide (c.holder = some u) <;> simp_all [Code.Disciplined]
      | lock next free =>
          rw [next] at mover
          simpa [free, Code.Disciplined] using mover
      | unlock next held =>
          rw [next] at mover
          simpa [held, Code.Disciplined] using mover
    · cases move with
      | act next => simpa [Function.update_of_ne same] using before
      | arrive next _ => exact before
      | leave next _ _ => simpa [Function.update_of_ne same] using before
      | lock next free =>
          have apart : t ≠ u := fun equal => same equal.symm
          simpa [Function.update_of_ne same, free, apart] using before
      | unlock next held =>
          have apart : t ≠ u := fun equal => same equal.symm
          simpa [Function.update_of_ne same, held, apart] using before

theorem Invariant.steps {code : ι → Code A} {exec : A → σ → σ} {may : Policy ι A σ}
    {c d : Config ι A σ} (invariant : Invariant code c) (run : Steps exec may c d) :
    Invariant code d := by
  induction run with
  | refl => exact invariant
  | tail _ step ih =>
      obtain ⟨t, -, move⟩ := step
      exact ih.move move

/-- What a party has still to do is the end of its code. -/
theorem Move.code_suffix {exec : A → σ → σ} {t : ι} {c d : Config ι A σ} (move : Move exec t c d)
    (u : ι) : d.code u <:+ c.code u := by
  by_cases same : u = t
  · subst same
    cases move with
    | arrive next outside => exact List.suffix_refl _
    | act next | leave next inside all | lock next free | unlock next held =>
        simp only [Function.update_self, next]
        exact List.suffix_cons _ _
  · cases move <;> simp [Function.update_of_ne same]

theorem Steps.code_suffix {exec : A → σ → σ} {may : Policy ι A σ} {c d : Config ι A σ}
    (run : Steps exec may c d) (u : ι) : d.code u <:+ c.code u := by
  induction run with
  | refl => exact List.suffix_refl _
  | tail _ step ih =>
      obtain ⟨t, -, move⟩ := step
      exact (move.code_suffix u).trans ih

/-! ## Given schedules -/

section Play

variable [Fintype ι]

/-- The next move of a party, when it has one. -/
def Config.move? (exec : A → σ → σ) (c : Config ι A σ) (t : ι) : Option (Config ι A σ) :=
  match c.code t with
  | [] => none
  | .act action :: rest =>
      some { c with memory := exec action c.memory, code := Function.update c.code t rest }
  | .wait :: rest =>
      if c.waiting t then
        if ∀ u, c.passed t + 1 ≤ c.arrived u then
          some { c with
            code := Function.update c.code t rest
            passed := Function.update c.passed t (c.passed t + 1)
            waiting := Function.update c.waiting t false }
        else none
      else some { c with waiting := Function.update c.waiting t true }
  | .lock :: rest =>
      if c.holder = none then
        some { c with code := Function.update c.code t rest, holder := some t }
      else none
  | .unlock :: rest =>
      if c.holder = some t then
        some { c with code := Function.update c.code t rest, holder := none }
      else none

theorem Move.of_move? {exec : A → σ → σ} {c d : Config ι A σ} {t : ι}
    (moved : c.move? exec t = some d) : Move exec t c d := by
  unfold Config.move? at moved
  split at moved
  · cases moved
  · cases moved
    exact .act ‹_›
  · split_ifs at moved with inside all
    · cases moved
      exact .leave ‹_› inside all
    · cases moved
      exact .arrive ‹_› (by simpa using inside)
  · split_ifs at moved with free
    cases moved
    exact .lock ‹_› free
  · split_ifs at moved with held
    cases moved
    exact .unlock ‹_› held

/-- The moves of the listed parties, one after the other. -/
def Config.play (exec : A → σ → σ) (c : Config ι A σ) (order : List ι) : Option (Config ι A σ) :=
  order.foldlM (fun c t => c.move? exec t) c

/-- A schedule that can be played is a run. -/
theorem Steps.of_play {exec : A → σ → σ} {c d : Config ι A σ} {order : List ι}
    (played : c.play exec order = some d) : Steps exec .free c d := by
  induction order generalizing c with
  | nil =>
      cases played
      exact .refl
  | cons t order ih =>
      obtain ⟨next, moved, rest⟩ := Option.bind_eq_some_iff.mp played
      exact .head ⟨t, trivial, .of_move? moved⟩ (ih rest)

end Play

/-! ## Progress -/

/-- A party is enabled when it has a move. -/
def Enabled (exec : A → σ → σ) (c : Config ι A σ) (t : ι) : Prop := ∃ d, Move exec t c d

/-- A party inside its critical section is never held up. -/
theorem Invariant.holder_enabled {code : ι → Code A} {exec : A → σ → σ} {c : Config ι A σ}
    (invariant : Invariant code c) (disciplined : ∀ t, Code.Disciplined false (code t))
    {t : ι} (held : c.holder = some t) : Enabled exec c t := by
  have critical := invariant.critical disciplined t
  simp only [held, decide_true] at critical
  cases next : c.code t with
  | nil => simp [next, Code.Disciplined] at critical
  | cons instr rest =>
      cases instr with
      | act action => exact ⟨_, .act next⟩
      | wait => simp [next, Code.Disciplined] at critical
      | lock => simp [next, Code.Disciplined] at critical
      | unlock => exact ⟨_, .unlock next held⟩

/-- With the mutex free, a party that is neither done nor inside the barrier has
a move. -/
theorem Invariant.outside_enabled {code : ι → Code A} {exec : A → σ → σ} {c : Config ι A σ}
    (invariant : Invariant code c) (disciplined : ∀ t, Code.Disciplined false (code t))
    (free : c.holder = none) {t : ι} (unfinished : c.code t ≠ [])
    (outside : c.waiting t = false) : Enabled exec c t := by
  have critical := invariant.critical disciplined t
  simp only [free, reduceCtorEq, decide_false] at critical
  cases next : c.code t with
  | nil => exact absurd next unfinished
  | cons instr rest =>
      cases instr with
      | act action => exact ⟨_, .act next⟩
      | wait => exact ⟨_, .arrive next outside⟩
      | lock => exact ⟨_, .lock next free⟩
      | unlock => simp [next, Code.Disciplined] at critical

/-- **No deadlock.**  When all codes wait equally often and critical sections
are disciplined, an unfinished state has an enabled party. -/
theorem Invariant.exists_enabled [Finite ι] {code : ι → Code A} {exec : A → σ → σ}
    {c : Config ι A σ} (invariant : Invariant code c)
    (disciplined : ∀ t, Code.Disciplined false (code t))
    (even : ∀ t u, (code t).waits = (code u).waits) (unfinished : ¬ c.Finished) :
    ∃ t, Enabled exec c t := by
  cases held : c.holder with
  | some t => exact ⟨t, invariant.holder_enabled disciplined held⟩
  | none =>
      by_cases inside : ∀ t, c.code t ≠ [] → c.waiting t = true
      · -- everybody left is inside the barrier, and whoever is furthest behind may leave
        obtain ⟨s, someLeft⟩ : ∃ t, c.code t ≠ [] := by
          by_contra none
          exact unfinished fun t => by_contra fun left => none ⟨t, left⟩
        obtain ⟨t, left, least⟩ :=
          Set.exists_min_image {t | c.code t ≠ []} c.passed (Set.toFinite _) ⟨s, someLeft⟩
        obtain ⟨rest, next⟩ := invariant.headed t (inside t left)
        refine ⟨t, _, .leave next (inside t left) fun u => ?_⟩
        by_cases done : c.code u = []
        · have mine := invariant.rounds t
          have other := invariant.rounds u
          have same := even t u
          simp only [next, Code.waits_wait] at mine
          simp only [done, Code.waits_nil] at other
          simp only [Config.arrived]
          omega
        · have bound := least u done
          simp only [Config.arrived, inside u done, Bool.toNat_true]
          omega
      · push Not at inside
        obtain ⟨t, left, outside⟩ := inside
        exact ⟨t, invariant.outside_enabled disciplined held left (by simpa using outside)⟩

/-- A policy that in no reachable state forbids all the enabled parties. -/
def Policy.Live (exec : A → σ → σ) (may : Policy ι A σ) (memory : σ) (code : ι → Code A) : Prop :=
  ∀ c, Steps exec may (Config.start memory code) c → (∃ t, Enabled exec c t) →
    ∃ t, may c t ∧ Enabled exec c t

theorem Policy.live_free (exec : A → σ → σ) (memory : σ) (code : ι → Code A) :
    Policy.Live exec .free memory code :=
  fun _ _ ⟨t, enabled⟩ => ⟨t, trivial, enabled⟩

/-- Every schedule of the codes is finite, none of them gets stuck before all
codes are done, and at the end the memory has a property. -/
structure Ensures (exec : A → σ → σ) (may : Policy ι A σ) (memory : σ) (code : ι → Code A)
    (post : σ → Prop) : Prop where
  finite : Acc (fun d c => Step exec may c d) (Config.start memory code)
  unstuck : ∀ c, Steps exec may (Config.start memory code) c → ¬ c.Finished →
    ∃ d, Step exec may c d
  result : ∀ c, Steps exec may (Config.start memory code) c → c.Finished → post c.memory

namespace Ensures

variable {exec : A → σ → σ} {may : Policy ι A σ} {memory : σ} {code : ι → Code A}
  {post : σ → Prop}

/-- Under a live policy, what holds of the memory of every finished run is
ensured. -/
theorem of_result [Fintype ι] (disciplined : ∀ t, Code.Disciplined false (code t))
    (even : ∀ t u, (code t).waits = (code u).waits) (live : Policy.Live exec may memory code)
    (result : ∀ c, Steps exec may (Config.start memory code) c → c.Finished → post c.memory) :
    Ensures exec may memory code post where
  finite := (step_wellFounded exec may).apply _
  unstuck := by
    intro c run unfinished
    have invariant := (Invariant.start memory code).steps run
    obtain ⟨t, allowed, d, move⟩ :=
      live c run (invariant.exists_enabled disciplined even unfinished)
    exact ⟨d, t, allowed, move⟩
  result := result

/-- Some schedule finishes. -/
theorem exists_finished (ensures : Ensures exec may memory code post) :
    ∃ c, Steps exec may (Config.start memory code) c ∧ c.Finished ∧ post c.memory := by
  suffices reach : ∀ c, Acc (fun d c => Step exec may c d) c →
      Steps exec may (Config.start memory code) c →
      ∃ d, Steps exec may (Config.start memory code) d ∧ d.Finished ∧ post d.memory from
    reach _ ensures.finite .refl
  intro c accessible
  induction accessible with
  | intro c _ ih =>
      intro run
      by_cases finished : c.Finished
      · exact ⟨c, run, finished, ensures.result c run finished⟩
      · obtain ⟨d, step⟩ := ensures.unstuck c run finished
        exact ih d step (run.tail step)

theorem imp (ensures : Ensures exec may memory code post) {weaker : σ → Prop}
    (implies : ∀ m, post m → weaker m) : Ensures exec may memory code weaker :=
  ⟨ensures.finite, ensures.unstuck, fun c run finished => implies _ (ensures.result c run finished)⟩

end Ensures

end Parallel
