import Mathlib.Data.Prod.Lex
import Mathlib.Logic.Function.Iterate
import ArgobotsReduction.Parallel.ForkJoinRuns

/-!
# A code that is repeated until a test holds

A loop takes at most a given number of turns, and it is left after a turn when the memory
passes a test (`repeatUntil`).

A main task may repeat a code of phases in this way (`RepeatStep`).  All the tasks of a turn
have ended when the turn has (`Placed.quiet`), so after every turn the memory is what the code
leaves when every task runs where it is forked, once for every turn
(`Repeats.memory_eq`).  The runs are finite (`repeatStep_wellFounded`), do not get stuck, and
take the turns of the sequential loop (`repeatEnsures`).
-/

set_option autoImplicit false

namespace Parallel

universe u v w x

/-! ## The loop -/

section Loop

variable {σ : Type x} (stop : σ → Prop) [DecidablePred stop] (body : σ → σ)

/-- The number of turns a loop takes, and the state it ends in. -/
def repeatUntil : ℕ → σ → ℕ × σ
  | 0, s => (0, s)
  | bound + 1, s =>
      let next := body s
      if stop next then (1, next)
      else
        let rest := repeatUntil bound next
        (rest.1 + 1, rest.2)

/-- A loop takes the turns before the first after which the test holds, and that one. -/
theorem repeatUntil_eq {bound turns : ℕ} {s : σ} (within : turns ≤ bound)
    (goesOn : ∀ k, 0 < k → k < turns → ¬ stop (body^[k] s))
    (ends : bound ≤ turns ∨ 0 < turns ∧ stop (body^[turns] s)) :
    repeatUntil stop body bound s = (turns, body^[turns] s) := by
  induction bound generalizing turns s with
  | zero =>
      obtain rfl : turns = 0 := by omega
      rfl
  | succ bound ih =>
      obtain ⟨turns, rfl⟩ : ∃ k, turns = k + 1 := by
        refine ⟨turns - 1, ?_⟩
        omega
      rw [repeatUntil]
      rcases Nat.eq_zero_or_pos turns with rfl | later
      · by_cases test : stop (body s)
        · rw [if_pos test]
          rfl
        · have none : bound = 0 := by
            rcases ends with all | ⟨-, holds⟩
            · omega
            · exact absurd holds test
          subst none
          rw [if_neg test]
          rfl
      · have first : ¬ stop (body s) := goesOn 1 one_pos (by omega)
        have rest : repeatUntil stop body bound (body s) = (turns, body^[turns] (body s)) := by
          apply ih (by omega)
          · intro k positive before
            exact goesOn (k + 1) k.succ_pos (by omega)
          · rcases ends with all | ⟨-, holds⟩
            · exact .inl (by omega)
            · exact .inr ⟨later, holds⟩
        rw [if_neg first, rest]
        rfl

/-- Loops whose tests agree after every turn take the same number of turns. -/
theorem repeatUntil_turns_congr {τ : Type w} {stop : σ → Prop} [DecidablePred stop] {body : σ → σ}
    {other : τ → Prop} [DecidablePred other] {otherBody : τ → τ} {s : σ} {t : τ}
    (same : ∀ k, 0 < k → (stop (body^[k] s) ↔ other (otherBody^[k] t))) (bound : ℕ) :
    (repeatUntil stop body bound s).1 = (repeatUntil other otherBody bound t).1 := by
  induction bound generalizing s t with
  | zero => rfl
  | succ bound ih =>
      have first : stop (body s) ↔ other (otherBody t) := same 1 one_pos
      have rest := ih fun k _ => same (k + 1) k.succ_pos
      by_cases test : stop (body s)
      · simp [repeatUntil, test, first.mp test]
      · simp [repeatUntil, test, mt first.mpr test, rest]

end Loop

namespace ForkJoin

/-! ## Runs of a repeated code -/

/-- A main task that repeats a code: the state of its tasks, the number of turns it has
started, and whether it has left the loop. -/
structure Repeating (Pool : Type u) (Slot : Type v) (A : Type w) (σ : Type x) where
  config : Config Pool Slot A σ
  turns : ℕ
  left : Bool

variable {Pool : Type u} {Slot : Type v} {A : Type w} {σ : Type x}

/-- The main task before the first turn. -/
def Repeating.start (memory : σ) : Repeating Pool Slot A σ := ⟨.start memory [], 0, false⟩

section Steps

variable [DecidableEq Slot] (exec : A → σ → σ) (may : Policy Pool Slot A σ)
  (body : List (Instr Pool Slot A)) (bound : ℕ) (stop : σ → Prop)

/-- One step of a party within a turn, the start of a turn, or the end of the loop. -/
inductive RepeatStep : Repeating Pool Slot A σ → Repeating Pool Slot A σ → Prop where
  | move {c d : Config Pool Slot A σ} {turns : ℕ} (step : Step exec may c d) :
      RepeatStep ⟨c, turns, false⟩ ⟨d, turns, false⟩
  | again {c : Config Pool Slot A σ} {turns : ℕ} (through : c.main = [])
      (goesOn : turns < bound ∧ (0 < turns → ¬ stop c.memory)) :
      RepeatStep ⟨c, turns, false⟩ ⟨{ c with main := body }, turns + 1, false⟩
  | leave {c : Config Pool Slot A σ} {turns : ℕ} (through : c.main = [])
      (ends : bound ≤ turns ∨ 0 < turns ∧ stop c.memory) :
      RepeatStep ⟨c, turns, false⟩ ⟨c, turns, true⟩

/-- The states a run can reach. -/
abbrev RepeatSteps : Repeating Pool Slot A σ → Repeating Pool Slot A σ → Prop :=
  Relation.ReflTransGen (RepeatStep exec may body bound stop)

/-- Every run of a repeated code is finite and does not get stuck before the main task has left
the loop.  Between two turns no task is running, and the memory has a property; it has another
one at the end. -/
structure RepeatEnsures (memory : σ) (between post : ℕ → σ → Prop) : Prop where
  finite : Acc (fun t s => RepeatStep exec may body bound stop s t) (.start memory)
  unstuck : ∀ s, RepeatSteps exec may body bound stop (.start memory) s → s.left = false →
    ∃ t, RepeatStep exec may body bound stop s t
  between : ∀ s, RepeatSteps exec may body bound stop (.start memory) s → s.config.main = [] →
    s.config.pending = [] ∧ between s.turns s.config.memory
  result : ∀ s, RepeatSteps exec may body bound stop (.start memory) s → s.left = true →
    post s.turns s.config.memory

/-- **Every run of a repeated code is finite.** -/
theorem repeatStep_wellFounded :
    WellFounded fun t s => RepeatStep exec may body bound stop s t := by
  have order := WellFounded.prod_lex Nat.lt_wfRel.wf
    (WellFounded.prod_lex Nat.lt_wfRel.wf Nat.lt_wfRel.wf)
  refine Subrelation.wf ?_ (InvImage.wf (fun s : Repeating Pool Slot A σ =>
    (bound - s.turns, (if s.left then 0 else 1), s.config.work)) order)
  intro t s step
  cases step with
  | move step =>
      obtain ⟨_, -, move⟩ := step
      exact .right _ (.right _ move.work_lt)
  | again _ goesOn =>
      exact .left _ _ (Nat.sub_lt_sub_left goesOn.1 (Nat.lt_succ_self _))
  | leave => exact .right _ (.left _ _ one_pos)

end Steps

/-! ## More code after the code -/

/-- The main task has more to do at the end. -/
def Config.then (c : Config Pool Slot A σ) (more : List (Instr Pool Slot A)) :
    Config Pool Slot A σ :=
  { c with main := c.main ++ more }

theorem Policy.inOrder_false :
    Policy.inOrder (fun _ _ => False) = (Policy.free : Policy Pool Slot A σ) := by
  funext c party
  cases party <;> simp [Policy.inOrder, Policy.free]

section Extended

variable [DecidableEq Slot] {exec : A → σ → σ} {must : A → A → Prop}
  {c d : Config Pool Slot A σ}

theorem Move.then {party : Option ℕ} (move : Move exec party c d)
    (more : List (Instr Pool Slot A)) : Move exec party (c.then more) (d.then more) := by
  cases move with
  | act next => exact .act (c := c.then more) (by rw [Config.then, next]; rfl)
  | fork next => exact .fork (c := c.then more) (by rw [Config.then, next]; rfl)
  | join next refers there ended first =>
      exact .join (c := c.then more) (by rw [Config.then, next]; rfl) refers there ended first
  | run there next first => exact .run (c := c.then more) there next first

theorem Move.main_ne_nil (move : Move exec none c d) : c.main ≠ [] := by
  cases move with
  | act next | fork next | join next =>
      rw [next]
      exact List.cons_ne_nil _ _

/-- What may happen does not depend on the code further on. -/
theorem Step.then (step : Step exec (Policy.inOrder must) c d)
    (more : List (Instr Pool Slot A)) :
    Step exec (Policy.inOrder must) (c.then more) (d.then more) := by
  obtain ⟨party, allowed, move⟩ := step
  refine ⟨party, ?_, move.then more⟩
  cases party with
  | some k => exact allowed
  | none =>
      intro action rest next
      obtain ⟨instr, others, split⟩ := List.exists_cons_of_ne_nil move.main_ne_nil
      rw [Config.then, split] at next
      obtain ⟨rfl, -⟩ := List.cons.inj next
      exact allowed action others split

end Extended

/-! ## A turn leaves nothing behind -/

/-- All tasks have ended when the main task has. -/
theorem Placed.quiet {exec : A → σ → σ} {must : A → A → Prop} {memory : σ}
    {phases : List (Phase Pool Slot A)} {c : Config Pool Slot A σ} (sound : Sound exec must phases)
    (placed : Placed exec memory phases c) (through : c.main = []) : c.pending = [] := by
  obtain ⟨done, phase, later, opened, left, joined, waits, old, position, onward⟩ :=
    placed.exists_next sound
  have nothing := position.main.symm.trans through
  simp only [List.append_eq_nil_iff, List.map_eq_nil_iff] at nothing
  obtain ⟨⟨rfl, rfl⟩, -⟩ := nothing
  have all := position.opening
  have closed := position.joins
  rw [List.append_nil] at all closed
  have stands := position.stands
  rw [← all, ← closed] at stands
  refine List.eq_nil_iff_forall_not_mem.mpr fun action todo => ?_
  obtain ⟨f, forked, -⟩ :=
    (stands.next_phase (sound.settles phase position.mem)).exists_fork_of_pending todo
  cases forked

/-! ## What a run of a repeated code has done -/

section Runs

variable [DecidableEq Slot] (exec : A → σ → σ) (must : A → A → Prop)
  (phases : List (Phase Pool Slot A)) (bound : ℕ) (stop : σ → Prop) (memory : σ)

/-- The code of some turns. -/
def turnsCode (turns : ℕ) : List (Phase Pool Slot A) := (List.replicate turns phases).flatten

/-- What one turn does to the memory when every task runs where it is forked. -/
def turnResult : σ → σ := execAll exec (sequential (phases.flatMap Phase.code))

/-- The facts of a state in a run of a repeated code.  The turns started are those of a code
that says each of them, and it may say more. -/
structure Repeats (s : Repeating Pool Slot A σ) : Prop where
  unrolled : ∀ more, Steps exec (Policy.inOrder must)
    (Config.start memory ((turnsCode phases (s.turns + more)).flatMap Phase.code))
    (s.config.then ((turnsCode phases more).flatMap Phase.code))
  fresh : s.turns = 0 → s.config = .start memory []
  within : s.turns ≤ bound
  goesOn : ∀ k, 0 < k → k < s.turns → ¬ stop ((turnResult exec phases)^[k] memory)
  ended : s.left = true → s.config.main = [] ∧
    (bound ≤ s.turns ∨ 0 < s.turns ∧ stop s.config.memory)

end Runs

section Facts

variable {exec : A → σ → σ} {must : A → A → Prop} {phases : List (Phase Pool Slot A)}
  {bound : ℕ} {stop : σ → Prop} {memory : σ}

theorem turnsCode_succ (turns : ℕ) :
    turnsCode phases (turns + 1) = phases ++ turnsCode phases turns := by
  simp [turnsCode, List.replicate_succ]

theorem Sound.turnsCode (sound : Sound exec must phases) {turns : ℕ} (some : 0 < turns) :
    Sound exec must (turnsCode phases turns) := by
  have inPhases : ∀ phase ∈ ForkJoin.turnsCode phases turns, phase ∈ phases := by
    intro phase member
    obtain ⟨part, isCopy, inside⟩ := List.mem_flatten.mp member
    exact List.eq_of_mem_replicate isCopy ▸ inside
  refine ⟨?_, fun phase member => sound.settles phase (inPhases phase member),
    fun phase member => sound.ordered phase (inPhases phase member)⟩
  obtain ⟨turns, rfl⟩ := Nat.exists_eq_succ_of_ne_zero some.ne'
  rw [turnsCode_succ]
  exact List.append_ne_nil_of_left_ne_nil sound.nonempty _

theorem execAll_turnsCode (turns : ℕ) :
    execAll exec (sequential ((turnsCode phases turns).flatMap Phase.code)) memory =
      (turnResult exec phases)^[turns] memory := by
  induction turns generalizing memory with
  | zero => rfl
  | succ turns ih =>
      rw [turnsCode_succ, List.flatMap_append, sequential_append, execAll_append, ih,
        Function.iterate_succ_apply]
      rfl

variable [DecidableEq Slot] {s t : Repeating Pool Slot A σ}

theorem Repeats.start : Repeats exec must phases bound stop memory (.start memory) where
  unrolled more := by
    rw [Repeating.start, Nat.zero_add]
    exact .refl
  fresh _ := rfl
  within := Nat.zero_le _
  goesOn k _ before := absurd before (Nat.not_lt_zero k)
  ended left := nomatch left

/-- The run of the code that says the turns. -/
theorem Repeats.steps (repeats : Repeats exec must phases bound stop memory s) :
    Steps exec (Policy.inOrder must)
      (Config.start memory ((turnsCode phases s.turns).flatMap Phase.code)) s.config := by
  have run := repeats.unrolled 0
  rwa [Nat.add_zero, Config.then, show turnsCode phases 0 = [] from rfl, List.flatMap_nil,
    List.append_nil] at run

/-- **Between two turns all tasks have ended**, and the memory is what the turns leave when every
task runs where it is forked. -/
theorem Repeats.memory_eq (sound : Sound exec must phases)
    (repeats : Repeats exec must phases bound stop memory s) (through : s.config.main = []) :
    s.config.pending = [] ∧ s.config.memory = (turnResult exec phases)^[s.turns] memory := by
  rcases Nat.eq_zero_or_pos s.turns with none | some
  · rw [repeats.fresh none, none]
    exact ⟨rfl, rfl⟩
  · have placed := repeats.steps.placed (sound.turnsCode some)
    have quiet := placed.quiet (sound.turnsCode some) through
    obtain ⟨executed, all, agrees, -⟩ := repeats.steps.agrees (sound.turnsCode some)
    rw [through, List.append_nil] at all
    rw [quiet, execAll_nil, all, execAll_turnsCode] at agrees
    exact ⟨quiet, agrees⟩

theorem Repeats.step (sound : Sound exec must phases)
    (repeats : Repeats exec must phases bound stop memory s)
    (step : RepeatStep exec (Policy.inOrder must) (phases.flatMap Phase.code) bound stop s t) :
    Repeats exec must phases bound stop memory t := by
  cases step with
  | move step =>
      refine ⟨fun more => (repeats.unrolled more).tail (step.then _), fun none => ?_,
        repeats.within, repeats.goesOn, nofun⟩
      -- before the first turn nobody can move
      obtain ⟨party, -, move⟩ := step
      have fresh := repeats.fresh none
      simp only at fresh
      subst fresh
      cases move with
      | act next | fork next | join next => cases next
      | run there => cases there
  | @again c turns through goesOn =>
      have memoryNow := (repeats.memory_eq sound through).2
      refine ⟨fun more => ?_, nofun, goesOn.1, fun k positive before => ?_, nofun⟩
      · have run := repeats.unrolled (more + 1)
        simp only [Config.then, through, List.nil_append, turnsCode_succ,
          List.flatMap_append] at run
        simp only [Config.then]
        rwa [show turns + 1 + more = turns + (more + 1) by omega]
      · rcases Nat.lt_succ_iff_lt_or_eq.mp before with earlier | rfl
        · exact repeats.goesOn k positive earlier
        · rw [← memoryNow]
          exact goesOn.2 positive
  | leave through ends =>
      exact ⟨repeats.unrolled, repeats.fresh, repeats.within, repeats.goesOn,
        fun _ => ⟨through, ends⟩⟩

theorem repeats_of_steps (sound : Sound exec must phases)
    (run : RepeatSteps exec (Policy.inOrder must) (phases.flatMap Phase.code) bound stop
      (.start memory) s) : Repeats exec must phases bound stop memory s := by
  induction run with
  | refl => exact .start
  | tail _ step ih => exact ih.step sound step

/-- **A main task that has not left the loop, or a task of its turn, can move.** -/
theorem Repeats.exists_step (sound : Sound exec must phases)
    (repeats : Repeats exec must phases bound stop memory s) (inside : s.left = false) :
    ∃ t, RepeatStep exec (Policy.inOrder must) (phases.flatMap Phase.code) bound stop s t := by
  obtain ⟨c, turns, left⟩ := s
  obtain rfl : left = false := inside
  by_cases through : c.main = []
  · by_cases ends : bound ≤ turns ∨ 0 < turns ∧ stop c.memory
    · exact ⟨_, .leave through ends⟩
    · rw [not_or, not_le, not_and] at ends
      exact ⟨_, .again through ends⟩
  · have some : 0 < turns := by
      rcases Nat.eq_zero_or_pos turns with none | some
      · have fresh := repeats.fresh none
        simp only at fresh
        exact absurd (by rw [fresh]; rfl) through
      · exact some
    obtain ⟨d, step⟩ := (ensures_sequential (sound.turnsCode some) memory).unstuck c
      repeats.steps fun finished => through finished.1
    exact ⟨_, .move step⟩

/-- A run leaves the loop after the turns of the sequential loop, and with its memory. -/
theorem Repeats.repeatUntil_eq [DecidablePred stop] (sound : Sound exec must phases)
    (repeats : Repeats exec must phases bound stop memory s) (left : s.left = true) :
    repeatUntil stop (turnResult exec phases) bound memory = (s.turns, s.config.memory) := by
  obtain ⟨through, ends⟩ := repeats.ended left
  have memoryNow := (repeats.memory_eq sound through).2
  rw [memoryNow] at ends ⊢
  exact Parallel.repeatUntil_eq stop _ repeats.within repeats.goesOn ends

/-- **A repeated code does what its turns do** when every task runs where it is forked, and
leaves the loop when they do. -/
theorem repeatEnsures [DecidablePred stop] (sound : Sound exec must phases) (bound : ℕ)
    (memory : σ) :
    RepeatEnsures exec (Policy.inOrder must) (phases.flatMap Phase.code) bound stop memory
      (fun turns now => now = (turnResult exec phases)^[turns] memory)
      (fun turns now => (turns, now) = repeatUntil stop (turnResult exec phases) bound memory) where
  finite := (repeatStep_wellFounded exec _ _ bound stop).apply _
  unstuck _ run inside := (repeats_of_steps sound run).exists_step sound inside
  between _ run through := (repeats_of_steps sound run).memory_eq sound through
  result _ run left := ((repeats_of_steps sound run).repeatUntil_eq sound left).symm

theorem RepeatEnsures.imp {may : Policy Pool Slot A σ} {body : List (Instr Pool Slot A)}
    {between otherBetween post otherPost : ℕ → σ → Prop}
    (ensures : RepeatEnsures exec may body bound stop memory between post)
    (inBetween : ∀ turns m, between turns m → otherBetween turns m)
    (atEnd : ∀ turns m, post turns m → otherPost turns m) :
    RepeatEnsures exec may body bound stop memory otherBetween otherPost :=
  ⟨ensures.finite, ensures.unstuck,
    fun s run through => (ensures.between s run through).imp_right (inBetween _ _),
    fun s run left => atEnd _ _ (ensures.result s run left)⟩

/-- Some run leaves the loop. -/
theorem RepeatEnsures.exists_left {may : Policy Pool Slot A σ} {body : List (Instr Pool Slot A)}
    {between post : ℕ → σ → Prop}
    (ensures : RepeatEnsures exec may body bound stop memory between post) :
    ∃ s, RepeatSteps exec may body bound stop (.start memory) s ∧ s.left = true := by
  have ends : ∀ s, Acc (fun t s => RepeatStep exec may body bound stop s t) s →
      RepeatSteps exec may body bound stop (.start memory) s →
        ∃ t, RepeatSteps exec may body bound stop (.start memory) t ∧ t.left = true := by
    intro s finite
    induction finite with
    | intro s _ ih =>
        intro run
        by_cases left : s.left = true
        · exact ⟨s, run, left⟩
        · obtain ⟨t, step⟩ := ensures.unstuck s run (by simpa using left)
          exact ih t step (run.tail step)
  exact ends _ ensures.finite .refl

end Facts

end ForkJoin

end Parallel
