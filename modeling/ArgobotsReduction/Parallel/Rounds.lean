import ArgobotsReduction.Parallel.Interleaving

/-!
# The round-by-round schedule, and runs that agree with it

The actions of the parties can be taken one barrier round after the other, and
within a round one party after the other in a fixed order.  This is the
canonical schedule (`schedule`).

A run takes the same actions in some other order.  When every action a run
takes can be exchanged with the pending actions that the canonical schedule has
before it, the run ends in the memory of the canonical schedule
(`Exchange.memory_of_finished`).  The exchange is asked for only in memories that satisfy
a predicate of the round, so that footprints may depend on data that the round
does not change.

Actions of different parties that always commute within a round are the plain
case (`Exchange.of_commute`): then every run, under every policy, is canonical.
-/

set_option autoImplicit false

namespace Parallel

universe u v w

variable {ι : Type v} {A : Type u} {σ : Type w}

/-! ## Running a list of actions -/

/-- The memory after a list of actions. -/
def execAll (exec : A → σ → σ) (items : List A) (memory : σ) : σ :=
  items.foldl (fun memory action => exec action memory) memory

@[simp] theorem execAll_nil (exec : A → σ → σ) (memory : σ) : execAll exec [] memory = memory := rfl

@[simp] theorem execAll_cons (exec : A → σ → σ) (action : A) (items : List A) (memory : σ) :
    execAll exec (action :: items) memory = execAll exec items (exec action memory) := rfl

@[simp] theorem execAll_append (exec : A → σ → σ) (first second : List A) (memory : σ) :
    execAll exec (first ++ second) memory = execAll exec second (execAll exec first memory) := by
  simp [execAll]

/-- What every action of a list keeps, the list keeps. -/
theorem execAll_keeps {exec : A → σ → σ} {good : σ → Prop} {items : List A}
    (keeps : ∀ action ∈ items, ∀ m, good m → good (exec action m)) {memory : σ}
    (holds : good memory) : good (execAll exec items memory) := by
  induction items generalizing memory with
  | nil => exact holds
  | cons action items ih =>
      exact ih (fun other member => keeps other (List.mem_cons_of_mem _ member))
        (keeps action List.mem_cons_self memory holds)

/-- An action that can be exchanged with every action of a list may be taken
before the list instead of after it. -/
theorem execAll_exchange {exec : A → σ → σ} (good : σ → Prop) {items : List A} {action : A}
    (keeps : ∀ other ∈ items, ∀ m, good m → good (exec other m))
    (exchange : ∀ other ∈ items, ∀ m, good m →
      exec action (exec other m) = exec other (exec action m)) {memory : σ}
    (holds : good memory) :
    exec action (execAll exec items memory) = execAll exec items (exec action memory) := by
  induction items generalizing memory with
  | nil => rfl
  | cons other items ih =>
      rw [execAll_cons, execAll_cons, ih
        (fun next member => keeps next (List.mem_cons_of_mem _ member))
        (fun next member => exchange next (List.mem_cons_of_mem _ member))
        (keeps other List.mem_cons_self memory holds),
        exchange other List.mem_cons_self memory holds]

/-! ## The canonical schedule -/

/-- The actions of the first rounds, round by round and party by party. -/
def schedule (order : List ι) (todo : ι → ℕ → List A) (rounds : ℕ) : List A :=
  (List.range rounds).flatMap fun round => order.flatMap fun t => todo t round

@[simp] theorem schedule_zero (order : List ι) (todo : ι → ℕ → List A) :
    schedule order todo 0 = [] := rfl

theorem schedule_succ (order : List ι) (todo : ι → ℕ → List A) (rounds : ℕ) :
    schedule order todo (rounds + 1) =
      schedule order todo rounds ++ order.flatMap fun t => todo t rounds := by
  simp [schedule, List.range_succ]

theorem schedule_congr {order : List ι} {todo other : ι → ℕ → List A} {rounds : ℕ}
    (same : ∀ t, ∀ round < rounds, todo t round = other t round) :
    schedule order todo rounds = schedule order other rounds := by
  refine List.flatMap_congr fun round member => ?_
  exact List.flatMap_congr fun t _ => same t round (List.mem_range.mp member)

theorem schedule_eq_nil {order : List ι} {todo : ι → ℕ → List A} {rounds : ℕ}
    (empty : ∀ t, ∀ round < rounds, todo t round = []) : schedule order todo rounds = [] := by
  rw [schedule, List.flatMap_eq_nil_iff]
  intro round member
  rw [List.flatMap_eq_nil_iff]
  exact fun t _ => empty t round (List.mem_range.mp member)

/-- The memory after the first rounds of the canonical schedule. -/
def canonical (exec : A → σ → σ) (order : List ι) (code : ι → Code A) (memory : σ)
    (rounds : ℕ) : σ :=
  execAll exec (schedule order (fun t => (code t).actions) rounds) memory

@[simp] theorem canonical_zero (exec : A → σ → σ) (order : List ι) (code : ι → Code A)
    (memory : σ) : canonical exec order code memory 0 = memory := rfl

theorem canonical_succ (exec : A → σ → σ) (order : List ι) (code : ι → Code A) (memory : σ)
    (rounds : ℕ) :
    canonical exec order code memory (rounds + 1) =
      execAll exec (order.flatMap fun t => (code t).actions rounds)
        (canonical exec order code memory rounds) := by
  rw [canonical, schedule_succ, execAll_append, canonical]

/-! ## Runs that can be rearranged into the canonical schedule -/

variable [DecidableEq ι]

/-- The conditions under which the runs of the given codes under a policy are
rearrangements of the canonical schedule. -/
structure Exchange (exec : A → σ → σ) (may : Policy ι A σ) (order : List ι)
    (code : ι → Code A) (memory : σ) (good : ℕ → σ → Prop) : Prop where
  complete : ∀ t, t ∈ order
  nodup : order.Nodup
  enter : ∀ round, good round (canonical exec order code memory round)
  keep : ∀ t round, ∀ action ∈ (code t).actions round, ∀ m, good round m →
    good round (exec action m)
  exchange : ∀ c : Config ι A σ, Steps exec may (Config.start memory code) c →
    ∀ t action rest, c.code t = .act action :: rest → may c t →
    ∀ before after, order = before ++ t :: after → ∀ u ∈ before,
    ∀ other ∈ c.remaining u (c.passed t), ∀ m, good (c.passed t) m →
      exec action (exec other m) = exec other (exec action m)

/-- Codes whose actions commute across parties in every round. -/
theorem Exchange.of_commute {exec : A → σ → σ} {may : Policy ι A σ} {order : List ι}
    {code : ι → Code A} {memory : σ} {good : ℕ → σ → Prop} (complete : ∀ t, t ∈ order)
    (nodup : order.Nodup) (enter : ∀ round, good round (canonical exec order code memory round))
    (keep : ∀ t round, ∀ action ∈ (code t).actions round, ∀ m, good round m →
      good round (exec action m))
    (commute : ∀ t u round, t ≠ u → ∀ action ∈ (code t).actions round,
      ∀ other ∈ (code u).actions round, ∀ m, good round m →
        exec action (exec other m) = exec other (exec action m)) :
    Exchange exec may order code memory good where
  complete := complete
  nodup := nodup
  enter := enter
  keep := keep
  exchange := by
    intro c run t action rest next _ before after split u earlier other pending m holds
    have invariant := (Invariant.start memory code).steps run
    have different : t ≠ u := by
      rintro rfl
      rw [split] at nodup
      exact List.disjoint_of_nodup_append nodup earlier List.mem_cons_self
    have mine : action ∈ c.remaining t (c.passed t) := by simp [Config.remaining, next]
    exact commute t u _ different action ((invariant.suffix t _).subset mine) other
      ((invariant.suffix u _).subset pending) m holds

section Agreement

variable {exec : A → σ → σ} {may : Policy ι A σ} {order : List ι} {code : ι → Code A}
  {memory : σ} {good : ℕ → σ → Prop}

/-- Rounds before the one some party is in are over for every party. -/
theorem Invariant.remaining_before {c : Config ι A σ} (invariant : Invariant code c) (t u : ι)
    {round : ℕ} (before : round < c.passed t) : c.remaining u round = [] := by
  have arrived := invariant.together t u
  by_cases past : round < c.passed u
  · simp [Config.remaining, past]
  · have inside : c.waiting u = true := by
      cases state : c.waiting u with
      | true => rfl
      | false => simp [Config.arrived, state] at arrived; omega
    have here : round = c.passed u := by
      simp [Config.arrived, inside] at arrived
      omega
    obtain ⟨rest, next⟩ := invariant.headed u inside
    simp [Config.remaining, here, next]

/-- A state that agrees with the canonical schedule: finishing the open rounds
canonically gives the canonical memory, and the memory is good for the latest
round. -/
structure Agrees (exec : A → σ → σ) (order : List ι) (code : ι → Code A) (memory : σ)
    (good : ℕ → σ → Prop) (c : Config ι A σ) : Prop where
  finish : ∀ rounds, (∀ t, c.passed t < rounds) →
    execAll exec (schedule order c.remaining rounds) c.memory =
      canonical exec order code memory rounds
  latest : ∀ t, (∀ u, c.passed u ≤ c.passed t) → good (c.passed t) c.memory

theorem Agrees.start (exchange : Exchange exec may order code memory good) :
    Agrees exec order code memory good (Config.start memory code) where
  finish := fun rounds _ => by
    rw [canonical, schedule_congr fun t round _ => Config.remaining_start memory code t round]
    rfl
  latest := fun _ _ => exchange.enter 0

/-- A party that takes an action is in the latest round. -/
theorem Invariant.passed_le_of_act {c : Config ι A σ} (invariant : Invariant code c) {t : ι}
    {action : A} {rest : Code A} (next : c.code t = .act action :: rest) (u : ι) :
    c.passed u ≤ c.passed t := by
  have outside : c.waiting t = false := by
    by_contra inside
    obtain ⟨_, same⟩ := invariant.headed t (by simpa using inside)
    simp [next] at same
  simpa [Config.arrived, outside] using invariant.together u t

/-- An action of a run moves to the front of what is left of its round. -/
theorem Agrees.exchange_round (exchange : Exchange exec may order code memory good)
    {c d : Config ι A σ} (run : Steps exec may (Config.start memory code) c) {t : ι}
    {action : A} {rest : Code A} (next : c.code t = .act action :: rest) (allowed : may c t)
    (move : Move exec t c d)
    (taken : c.remaining t (c.passed t) = action :: d.remaining t (c.passed t))
    (holds : good (c.passed t) c.memory) :
    execAll exec (order.flatMap fun u => d.remaining u (c.passed t)) (exec action c.memory) =
      execAll exec (order.flatMap fun u => c.remaining u (c.passed t)) c.memory := by
  have invariant := (Invariant.start memory code).steps run
  obtain ⟨before, after, split⟩ := List.append_of_mem (exchange.complete t)
  have apart : ∀ u ∈ before ++ after, u ≠ t := by
    intro u member same
    have nodup := exchange.nodup
    rw [split, List.nodup_middle] at nodup
    exact (List.nodup_cons.mp nodup).1 (same ▸ member)
  have others : ∀ part : List ι, (∀ u ∈ part, u ≠ t) →
      (part.flatMap fun u => d.remaining u (c.passed t)) =
        part.flatMap fun u => c.remaining u (c.passed t) :=
    fun part different => List.flatMap_congr fun u member =>
      move.remaining_of_ne (different u member) _
  rw [split]
  simp only [List.flatMap_append, List.flatMap_cons, execAll_append]
  rw [others before fun u member => apart u (List.mem_append_left _ member),
    others after fun u member => apart u (List.mem_append_right _ member), taken, execAll_cons]
  congr 2
  refine (execAll_exchange (good (c.passed t)) ?_ ?_ holds).symm
  · intro other member m kept
    obtain ⟨u, -, pending⟩ := List.mem_flatMap.mp member
    exact exchange.keep u _ other ((invariant.suffix u _).subset pending) m kept
  · intro other member m kept
    obtain ⟨u, earlier, pending⟩ := List.mem_flatMap.mp member
    exact exchange.exchange c run t action rest next allowed before after split u earlier other
      pending m kept

theorem Agrees.act (exchange : Exchange exec may order code memory good)
    {c d : Config ι A σ} (run : Steps exec may (Config.start memory code) c)
    (agrees : Agrees exec order code memory good c) {t : ι} {action : A} {rest : Code A}
    (next : c.code t = .act action :: rest) (allowed : may c t) (move : Move exec t c d)
    (taken : c.remaining t (c.passed t) = action :: d.remaining t (c.passed t))
    (stored : d.memory = exec action c.memory) (samePassed : d.passed = c.passed) :
    Agrees exec order code memory good d := by
  have invariant := (Invariant.start memory code).steps run
  have latestRound := invariant.passed_le_of_act next
  have holds : good (c.passed t) c.memory := agrees.latest t latestRound
  have later : ∀ u round, c.passed t < round → d.remaining u round = c.remaining u round := by
    intro u round after
    by_cases same : u = t
    · subst same
      rcases move.remaining_self round with ⟨_, -, here, -⟩ | unchanged
      · omega
      · exact unchanged.symm
    · exact move.remaining_of_ne same round
  have finish : ∀ more,
      execAll exec (schedule order d.remaining (c.passed t + 1 + more)) d.memory =
        execAll exec (schedule order c.remaining (c.passed t + 1 + more)) c.memory := by
    intro more
    induction more with
    | zero =>
        have finished : ∀ u, ∀ round < c.passed t, d.remaining u round = [] := fun u round before =>
          (invariant.move move).remaining_before t u (by rw [samePassed]; exact before)
        rw [Nat.add_zero, schedule_succ, schedule_succ, schedule_eq_nil finished,
          schedule_eq_nil fun u round before => invariant.remaining_before t u before,
          List.nil_append, List.nil_append, stored]
        exact exchange_round exchange run next allowed move taken holds
    | succ more ih =>
        rw [← Nat.add_assoc, schedule_succ, schedule_succ, execAll_append, execAll_append, ih,
          List.flatMap_congr fun u _ => later u _ (by omega)]
  refine ⟨fun rounds within => ?_, fun u highest => ?_⟩
  · rw [samePassed] at within
    rw [← agrees.finish rounds within]
    obtain ⟨more, rfl⟩ : ∃ k, rounds = c.passed t + 1 + k :=
      ⟨rounds - (c.passed t + 1), by have := within t; omega⟩
    exact finish more
  · rw [samePassed] at highest ⊢
    have equal : c.passed u = c.passed t := le_antisymm (latestRound u) (highest t)
    have mine : action ∈ c.remaining t (c.passed t) := by rw [taken]; exact List.mem_cons_self
    rw [equal, stored]
    exact exchange.keep t _ action ((invariant.suffix t _).subset mine) _ holds

/-- The first party to leave a round finds the canonical memory of the next. -/
theorem Agrees.leave (exchange : Exchange exec may order code memory good)
    {c d : Config ι A σ} (agrees : Agrees exec order code memory good c)
    (invariant : Invariant code c) {t : ι} (move : Move exec t c d)
    (all : ∀ u, c.passed t + 1 ≤ c.arrived u)
    (same : ∀ u round, d.remaining u round = c.remaining u round) (stored : d.memory = c.memory)
    (passed : d.passed = Function.update c.passed t (c.passed t + 1)) :
    Agrees exec order code memory good d := by
  have after := invariant.move move
  refine ⟨fun rounds within => ?_, fun u highest => ?_⟩
  · have before : ∀ u, c.passed u < rounds := by
      intro u
      have bound := within u
      rw [passed] at bound
      by_cases self : u = t
      · subst self
        rw [Function.update_self] at bound
        omega
      · rwa [Function.update_of_ne self] at bound
    rw [← agrees.finish rounds before, stored, schedule_congr fun u round _ => same u round]
  · -- the latest round is the one the party enters
    have entered : d.passed t = c.passed t + 1 := by rw [passed, Function.update_self]
    have others : ∀ v, v ≠ t → d.passed v = c.passed v := fun v different => by
      rw [passed, Function.update_of_ne different]
    have ahead : ∀ v, c.passed v ≤ c.passed t + 1 := by
      intro v
      have bound := invariant.together v t
      have few := Bool.toNat_le (c.waiting t)
      simp only [Config.arrived] at bound
      omega
    have round : d.passed u = c.passed t + 1 := by
      refine le_antisymm ?_ (entered ▸ highest t)
      by_cases self : u = t
      · rw [self, entered]
      · rw [others u self]
        exact ahead u
    rw [round, stored]
    by_cases first : ∃ v, c.passed v = c.passed t + 1
    · obtain ⟨v, there⟩ := first
      exact there ▸ agrees.latest v fun w => there ▸ ahead w
    · push Not at first
      have within : ∀ v, c.passed v < c.passed t + 1 := fun v =>
        lt_of_le_of_ne (ahead v) (first v)
      have empty : schedule order c.remaining (c.passed t + 1) = [] :=
        schedule_eq_nil fun v round before => by
          rw [← same v round]
          exact after.remaining_before t v (by rw [entered]; exact before)
      have reached := agrees.finish _ within
      rw [empty, execAll_nil] at reached
      exact reached ▸ exchange.enter _

theorem Agrees.move (exchange : Exchange exec may order code memory good)
    {c d : Config ι A σ} (run : Steps exec may (Config.start memory code) c)
    (agrees : Agrees exec order code memory good c) {t : ι} (allowed : may c t)
    (move : Move exec t c d) : Agrees exec order code memory good d := by
  have invariant := (Invariant.start memory code).steps run
  have unchanged := move.remaining_of_not_act
  cases move with
  | @act action rest next =>
      exact agrees.act exchange run next allowed (.act next)
        (by simp [Config.remaining, next]) rfl rfl
  | arrive next outside => exact ⟨agrees.finish, agrees.latest⟩
  | leave next inside all =>
      exact agrees.leave exchange invariant (.leave next inside all) all
        (unchanged (by simp [next])) rfl rfl
  | lock next free =>
      refine ⟨fun rounds within => ?_, agrees.latest⟩
      rw [← agrees.finish rounds within,
        schedule_congr fun u round _ => unchanged (by simp [next]) u round]
  | unlock next held =>
      refine ⟨fun rounds within => ?_, agrees.latest⟩
      rw [← agrees.finish rounds within,
        schedule_congr fun u round _ => unchanged (by simp [next]) u round]

theorem Agrees.steps (exchange : Exchange exec may order code memory good) {c : Config ι A σ}
    (run : Steps exec may (Config.start memory code) c) :
    Agrees exec order code memory good c := by
  induction run with
  | refl => exact Agrees.start exchange
  | tail run step ih =>
      obtain ⟨t, allowed, move⟩ := step
      exact ih.move exchange run allowed move

/-- **Every finished run is canonical.**  Its memory is the one the canonical
schedule leaves. -/
theorem Exchange.memory_of_finished (exchange : Exchange exec may order code memory good)
    {rounds : ℕ} (enough : ∀ t, (code t).waits < rounds) {c : Config ι A σ}
    (run : Steps exec may (Config.start memory code) c) (finished : c.Finished) :
    c.memory = canonical exec order code memory rounds := by
  have invariant := (Invariant.start memory code).steps run
  have within : ∀ t, c.passed t < rounds := fun t => by
    have count := invariant.rounds t
    have bound := enough t
    omega
  have reached := (Agrees.steps exchange run).finish rounds within
  rwa [schedule_eq_nil fun t round _ => finished.remaining t round, execAll_nil] at reached

/-- **Every schedule under a live policy is finite, does not get stuck and ends
in the canonical memory.** -/
theorem Exchange.ensures [Fintype ι] (exchange : Exchange exec may order code memory good)
    (disciplined : ∀ t, Code.Disciplined false (code t)) {rounds : ℕ}
    (even : ∀ t, (code t).waits + 1 = rounds) (live : Policy.Live exec may memory code) :
    Ensures exec may memory code (· = canonical exec order code memory rounds) :=
  .of_result disciplined (fun t u => Nat.succ_injective ((even t).trans (even u).symm)) live
    fun _ run finished => exchange.memory_of_finished
      (fun t => Nat.lt_of_succ_le (even t).le) run finished

end Agreement

end Parallel
