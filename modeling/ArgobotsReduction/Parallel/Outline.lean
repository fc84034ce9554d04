import ArgobotsReduction.Parallel.Interleaving

/-!
# Proof outlines for parties with a barrier

A proof outline annotates the code of every party: an assertion for each round
and each list of actions the party has still to take in it.  The outline is
correct (`Outline`) when

* the first assertions hold at the start;
* an action of a party leads from its assertion to its next one;
* an action of a party leaves the assertions of the others as they are, wherever
  they may stand when it is taken;
* when all parties are at the end of a round, the first assertions of the next
  round hold.

In every run of the codes the assertions then hold wherever the parties stand
(`Outline.steps`), and at the end of a finished run the last ones do
(`Outline.of_finished`).

Unlike an argument by exchange, an outline says nothing about the memory that
no assertion mentions.  Two runs may leave different garbage there.
-/

set_option autoImplicit false

namespace Parallel

universe u v w

variable {ι : Type v} {A : Type u} {σ : Type w}

/-- A correct proof outline of the given codes under a policy. -/
structure Outline [DecidableEq ι] (exec : A → σ → σ) (may : Policy ι A σ) (memory : σ)
    (code : ι → Code A) (holds : ι → ℕ → List A → σ → Prop) : Prop where
  start : ∀ t, holds t 0 ((code t).actions 0) memory
  own : ∀ t round action rest m, action :: rest <:+ (code t).actions round →
    holds t round (action :: rest) m → holds t round rest (exec action m)
  apart : ∀ c : Config ι A σ, ∀ t u, u ≠ t → ∀ action rest,
    c.remaining t (c.passed t) = action :: rest → may c t →
    action :: rest <:+ (code t).actions (c.passed t) →
    c.remaining u (c.passed t) <:+ (code u).actions (c.passed t) →
    holds t (c.passed t) (action :: rest) c.memory →
    holds u (c.passed t) (c.remaining u (c.passed t)) c.memory →
    holds u (c.passed t) (c.remaining u (c.passed t)) (exec action c.memory)
  barrier : ∀ round, (∀ t, round < (code t).waits) → ∀ m, (∀ t, holds t round [] m) →
    ∀ t, holds t (round + 1) ((code t).actions (round + 1)) m

/-- The parties stand in one round, or wait before it, and the assertions of
that round hold.  The rounds after it are untouched. -/
structure Stands (code : ι → Code A) (holds : ι → ℕ → List A → σ → Prop) (c : Config ι A σ)
    (round : ℕ) : Prop where
  passed : ∀ t, c.passed t ≤ round
  arrived : ∀ t, round ≤ c.arrived t
  untouched : ∀ t later, round < later → c.remaining t later = (code t).actions later
  holds : ∀ t, holds t round (c.remaining t round) c.memory

variable {code : ι → Code A} {holds : ι → ℕ → List A → σ → Prop}

/-- A party that is outside the barrier is in the round where the parties stand. -/
theorem Stands.passed_eq {c : Config ι A σ} {round : ℕ} (stands : Stands code holds c round)
    {t : ι} (outside : c.waiting t = false) : c.passed t = round := by
  have lower := stands.arrived t
  simp only [Config.arrived, outside, Bool.toNat_false, Nat.add_zero] at lower
  exact le_antisymm (stands.passed t) lower

/-- A move that changes neither the memory nor what is left of any round. -/
theorem Stands.idle {c d : Config ι A σ} {round : ℕ} (stands : Stands code holds c round)
    (stored : d.memory = c.memory)
    (same : ∀ u later, d.remaining u later = c.remaining u later)
    (passed : ∀ u, d.passed u ≤ round) (arrived : ∀ u, c.arrived u ≤ d.arrived u) :
    Stands code holds d round where
  passed := passed
  arrived := fun u => (stands.arrived u).trans (arrived u)
  untouched := fun u later after => (same u later).trans (stands.untouched u later after)
  holds := fun u => by
    rw [stored, same]
    exact stands.holds u

section

variable [DecidableEq ι] {exec : A → σ → σ} {may : Policy ι A σ} {memory : σ}

namespace Outline

theorem stands_start (outline : Outline exec may memory code holds) :
    Stands code holds (Config.start memory code) 0 where
  passed := fun _ => le_refl 0
  arrived := fun _ => Nat.zero_le _
  untouched := fun t later _ => Config.remaining_start memory code t later
  holds := fun t => by
    rw [Config.remaining_start]
    exact outline.start t

theorem act (outline : Outline exec may memory code holds) {c d : Config ι A σ} {round : ℕ}
    (invariant : Invariant code c) (stands : Stands code holds c round) {t : ι}
    (allowed : may c t) (move : Move exec t c d) {action : A} {rest : Code A}
    (next : c.code t = .act action :: rest) (stored : d.memory = exec action c.memory)
    (samePassed : d.passed = c.passed) (sameWaiting : d.waiting = c.waiting)
    (taken : c.remaining t (c.passed t) = action :: d.remaining t (c.passed t)) :
    Stands code holds d round := by
  have outside : c.waiting t = false := by
    by_contra inside
    obtain ⟨_, same⟩ := invariant.headed t (by simpa using inside)
    simp [next] at same
  obtain rfl := stands.passed_eq outside
  have mine : action :: d.remaining t (c.passed t) <:+ (code t).actions (c.passed t) :=
    taken ▸ invariant.suffix t (c.passed t)
  have before : holds t (c.passed t) (action :: d.remaining t (c.passed t)) c.memory :=
    taken ▸ stands.holds t
  refine ⟨fun u => samePassed ▸ stands.passed u, fun u => ?_, fun u later after => ?_,
    fun u => ?_⟩
  · simpa only [Config.arrived, samePassed, sameWaiting] using stands.arrived u
  · rw [← stands.untouched u later after]
    by_cases same : u = t
    · subst same
      rcases move.remaining_self later with ⟨_, -, here, -⟩ | unchanged
      · omega
      · exact unchanged.symm
    · exact move.remaining_of_ne same later
  · rw [stored]
    by_cases same : u = t
    · subst same
      exact outline.own u _ action _ c.memory mine before
    · rw [move.remaining_of_ne same]
      exact outline.apart c t u same action _ taken allowed mine (invariant.suffix u _) before
        (stands.holds u)

/-- When everybody has arrived at the end of the round, the parties stand in the
next one. -/
theorem next_round (outline : Outline exec may memory code holds) {c : Config ι A σ} {round : ℕ}
    (invariant : Invariant code c) (stands : Stands code holds c round)
    (all : ∀ u, round + 1 ≤ c.arrived u) : Stands code holds c (round + 1) := by
  have inside : ∀ u, c.waiting u = true ∧ c.passed u = round := by
    intro u
    have upper := stands.passed u
    have lower := all u
    cases waiting : c.waiting u with
    | true =>
        simp only [Config.arrived, waiting, Bool.toNat_true] at lower
        exact ⟨rfl, by omega⟩
    | false =>
        simp only [Config.arrived, waiting, Bool.toNat_false] at lower
        omega
  have ended : ∀ u, c.remaining u round = [] ∧ round < (code u).waits := by
    intro u
    obtain ⟨rest, next⟩ := invariant.headed u (inside u).1
    have count := invariant.rounds u
    rw [next, Code.waits_wait, (inside u).2] at count
    exact ⟨by simp [Config.remaining, (inside u).2, next], by omega⟩
  refine ⟨fun u => (stands.passed u).trans (Nat.le_succ round), all,
    fun u later after => stands.untouched u later (Nat.lt_of_succ_lt after), fun u => ?_⟩
  rw [stands.untouched u _ (Nat.lt_succ_self round)]
  exact outline.barrier round (fun v => (ended v).2) c.memory
    (fun v => (ended v).1 ▸ stands.holds v) u

theorem move (outline : Outline exec may memory code holds) {c d : Config ι A σ} {round : ℕ}
    (invariant : Invariant code c) (stands : Stands code holds c round) {t : ι}
    (allowed : may c t) (move : Move exec t c d) : ∃ now, Stands code holds d now := by
  have kept := move.remaining_of_not_act
  cases move with
  | act next =>
      exact ⟨round, outline.act invariant stands allowed (.act next) next rfl rfl rfl
        (by simp [Config.remaining, next])⟩
  | arrive next outside =>
      refine ⟨round, stands.idle rfl (kept (by simp [next])) stands.passed fun u => ?_⟩
      by_cases same : u = t
      · subst same
        simp [Config.arrived, outside]
      · simp [Config.arrived, Function.update_of_ne same]
  | leave next inside all =>
      -- the first party to leave takes everybody to the next round
      have reached : Stands code holds c (c.passed t + 1) := by
        have lower := stands.arrived t
        have upper := stands.passed t
        simp only [Config.arrived, inside, Bool.toNat_true] at lower
        rcases Nat.lt_or_ge round (c.passed t + 1) with first | later
        · obtain rfl : c.passed t = round := by omega
          exact outline.next_round invariant stands all
        · obtain rfl : round = c.passed t + 1 := by omega
          exact stands
      refine ⟨c.passed t + 1, reached.idle rfl (kept (by simp [next])) (fun u => ?_) fun u => ?_⟩
      · by_cases same : u = t
        · subst same
          simp
        · simpa [Function.update_of_ne same] using reached.passed u
      · by_cases same : u = t
        · subst same
          simp [Config.arrived, inside]
        · simp [Config.arrived, Function.update_of_ne same]
  | lock next free =>
      exact ⟨round, stands.idle rfl (kept (by simp [next])) stands.passed fun u => le_refl _⟩
  | unlock next held =>
      exact ⟨round, stands.idle rfl (kept (by simp [next])) stands.passed fun u => le_refl _⟩

/-- **The assertions hold wherever the parties stand**, in every run. -/
theorem steps (outline : Outline exec may memory code holds) {c : Config ι A σ}
    (run : Steps exec may (Config.start memory code) c) :
    ∃ round, Stands code holds c round := by
  induction run with
  | refl => exact ⟨0, outline.stands_start⟩
  | tail run step ih =>
      obtain ⟨round, stands⟩ := ih
      obtain ⟨t, allowed, move⟩ := step
      exact outline.move ((Invariant.start memory code).steps run) stands allowed move

/-- **The last assertions hold at the end of every finished run.** -/
theorem of_finished (outline : Outline exec may memory code holds) {c : Config ι A σ}
    (run : Steps exec may (Config.start memory code) c) (finished : c.Finished) (t : ι) :
    holds t (code t).waits [] c.memory := by
  have invariant := (Invariant.start memory code).steps run
  obtain ⟨round, stands⟩ := outline.steps run
  have outside : c.waiting t = false := by
    by_contra inside
    obtain ⟨_, same⟩ := invariant.headed t (by simpa using inside)
    simp [finished t] at same
  have count := invariant.rounds t
  rw [finished t, Code.waits_nil, Nat.add_zero, stands.passed_eq outside] at count
  subst count
  have last := stands.holds t
  rwa [finished.remaining t] at last

/-- Under a live policy every schedule ends, and ends in the last assertions. -/
theorem ensures [Fintype ι] (outline : Outline exec may memory code holds)
    (disciplined : ∀ t, Code.Disciplined false (code t))
    (even : ∀ t u, (code t).waits = (code u).waits) (live : Policy.Live exec may memory code) :
    Ensures exec may memory code fun m => ∀ t, holds t (code t).waits [] m :=
  .of_result disciplined even live fun _ run finished t => outline.of_finished run finished t

end Outline

end

end Parallel
