import ArgobotsReduction.Parallel.ForkJoin

/-!
# The runs of a code that is made of phases

In a state of a run, the main task stands in some phase, and the tasks that still
have something to do were forked in it (`Stands`, `Position`).  When the phases
settle and are ordered, the memory of every reachable state becomes, with the
actions still pending, the one that the code executed so far leaves when every
task runs to its end where it is forked (`Steps.agrees`).  So every run under the
policy that keeps the order ends, and ends in that memory (`ensures_sequential`).
-/

set_option autoImplicit false

namespace Parallel.ForkJoin

universe u v w x

variable {Pool : Type u} {Slot : Type v} {A : Type w} {σ : Type x}

/-! ## Where the parties stand in a phase -/

/-- The facts of a phase that has executed `opened` and joined `joined`, when the
code `passed` of earlier phases forked the first `old` tasks. -/
structure Stands (exec : A → σ → σ) (memory : σ) (passed opened : List (Instr Pool Slot A))
    (joined : List Slot) (old : ℕ) (c : Config Pool Slot A σ) : Prop where
  count : c.tasks.length = old + (forks opened).length
  idle : ∀ k < old, ∀ task, c.tasks[k]? = some task → task.todo = []
  forked : ∀ k f, (forks opened)[k]? = some f →
    ∃ task, c.tasks[old + k]? = some task ∧ task.pool = f.pool ∧ task.todo <:+ f.body
  handles : ∀ k f, IsLast (forks opened) k f → f.slot ∉ joined →
    c.handle f.slot = some (old + k)
  ended : ∀ k f, IsLast (forks opened) k f → f.slot ∈ joined →
    ∀ l ≤ old + k, ∀ task, c.tasks[l]? = some task → task.pool = f.pool → task.todo = []
  agrees : execAll exec c.pending c.memory =
    execAll exec (sequential passed ++ sequential opened) memory

namespace Stands

variable {exec : A → σ → σ} {memory : σ} {passed opened : List (Instr Pool Slot A)}
  {joined : List Slot} {old : ℕ} {c d : Config Pool Slot A σ}

/-- A task with something to do was forked in this phase. -/
theorem exists_fork (stands : Stands exec memory passed opened joined old c) {k : ℕ}
    {task : Task Pool A} (there : c.tasks[k]? = some task) (busy : task.todo ≠ []) :
    ∃ l f, k = old + l ∧ (forks opened)[l]? = some f ∧ task.pool = f.pool ∧
      task.todo <:+ f.body := by
  have within := (List.getElem?_eq_some_iff.mp there).1
  have recent : old ≤ k := by
    by_contra before
    exact busy (stands.idle k (by omega) task there)
  obtain ⟨l, rfl⟩ := Nat.exists_eq_add_of_le recent
  have inside : l < (forks opened).length := by
    rw [stands.count] at within
    omega
  obtain ⟨other, same, pool, suffix⟩ :=
    stands.forked l _ (List.getElem?_eq_getElem inside)
  obtain rfl := Option.some.inj (there.symm.trans same)
  exact ⟨l, _, rfl, List.getElem?_eq_getElem inside, pool, suffix⟩

/-- A pending action belongs to a task of this phase. -/
theorem exists_fork_of_pending (stands : Stands exec memory passed opened joined old c)
    {action : A} (pending : action ∈ c.pending) : ∃ f ∈ forks opened, action ∈ f.body := by
  obtain ⟨task, member, todo⟩ := List.mem_flatMap.mp pending
  obtain ⟨k, there⟩ := List.mem_iff_getElem?.mp member
  obtain ⟨l, f, -, forked, -, suffix⟩ := stands.exists_fork there (List.ne_nil_of_mem todo)
  exact ⟨f, List.mem_of_getElem? forked, suffix.subset todo⟩

/-- The facts of a state whose tasks are those of another one with less to do. -/
theorem of_tasks (stands : Stands exec memory passed opened joined old c) {k : ℕ}
    {task : Task Pool A} (after : Task Pool A) (there : c.tasks[k]? = some task)
    (pool : after.pool = task.pool)
    (suffix : after.todo <:+ task.todo) (tasks : d.tasks = c.tasks.set k after)
    (handle : d.handle = c.handle)
    (agrees : execAll exec d.pending d.memory =
      execAll exec (sequential passed ++ sequential opened) memory) :
    Stands exec memory passed opened joined old d := by
  have within := (List.getElem?_eq_some_iff.mp there).1
  -- every task of the new state was there with the same pool and at least as much to do
  have back : ∀ (l : ℕ) (now : Task Pool A), d.tasks[l]? = some now →
      ∃ before : Task Pool A, c.tasks[l]? = some before ∧ now.pool = before.pool ∧
        now.todo <:+ before.todo := by
    intro l now here
    rw [tasks] at here
    rcases eq_or_ne k l with rfl | other
    · rw [List.getElem?_set_self within] at here
      obtain rfl := Option.some.inj here
      exact ⟨task, there, pool, suffix⟩
    · rw [List.getElem?_set_ne other] at here
      exact ⟨now, here, rfl, List.suffix_refl _⟩
  refine ⟨?_, ?_, ?_, ?_, ?_, agrees⟩
  · rw [tasks, List.length_set, stands.count]
  · intro l before now here
    obtain ⟨previous, was, -, shorter⟩ := back l now here
    rw [stands.idle l before previous was] at shorter
    exact List.suffix_nil.mp shorter
  · intro l f forked
    obtain ⟨previous, was, samePool, shorter⟩ := stands.forked l f forked
    rw [tasks]
    rcases eq_or_ne k (old + l) with rfl | other
    · obtain rfl := Option.some.inj (there.symm.trans was)
      exact ⟨after, List.getElem?_set_self within, pool.trans samePool, suffix.trans shorter⟩
    · exact ⟨previous, by rw [List.getElem?_set_ne other, was], samePool, shorter⟩
  · intro l f last unjoined
    rw [handle]
    exact stands.handles l f last unjoined
  · intro l f last closed m upTo now here samePool
    obtain ⟨previous, was, pools, shorter⟩ := back m now here
    rw [stands.ended l f last closed m upTo previous was (pools ▸ samePool)] at shorter
    exact List.suffix_nil.mp shorter

/-- The main task acts. -/
theorem act (stands : Stands exec memory passed opened joined old c) {action : A}
    {rest : List (Instr Pool Slot A)}
    (exchange : ∀ other ∈ c.pending, ∀ m, exec action (exec other m) = exec other (exec action m)) :
    Stands exec memory passed (opened ++ [.act action]) joined old
      { c with memory := exec action c.memory, main := rest } := by
  have same : forks (opened ++ [.act action]) = forks opened := by
    simp [forks, Instr.fork?]
  refine ⟨same ▸ stands.count, stands.idle, same ▸ stands.forked, same ▸ stands.handles,
    same ▸ stands.ended, ?_⟩
  have moved : exec action (execAll exec c.pending c.memory) =
      execAll exec c.pending (exec action c.memory) :=
    execAll_exchange (fun _ => True) (fun _ _ _ _ => trivial)
      (fun other member m _ => exchange other member m) trivial
  have step : sequential (opened ++ [.act action]) = sequential opened ++ [action] := by
    simp [sequential, Instr.actions]
  rw [step, ← List.append_assoc, execAll_append, ← stands.agrees]
  exact moved.symm

/-- The main task forks. -/
theorem fork [DecidableEq Slot] (stands : Stands exec memory passed opened [] old c) {pool : Pool}
    {slot : Slot} {body : List A} {rest : List (Instr Pool Slot A)} :
    Stands exec memory passed (opened ++ [.fork pool slot body]) [] old
      { c with
        main := rest
        tasks := c.tasks ++ [⟨pool, body, false⟩]
        handle := Function.update c.handle slot (some c.tasks.length) } := by
  have grown : forks (opened ++ [.fork pool slot body]) = forks opened ++ [⟨pool, slot, body⟩] := by
    simp [forks, Instr.fork?]
  refine ⟨?_, ?_, ?_, ?_, fun _ _ _ closed => absurd closed List.not_mem_nil, ?_⟩
  · rw [grown, List.length_append, List.length_append, stands.count]
    rfl
  · intro k before task there
    rw [List.getElem?_append_left (by have count := stands.count; omega)] at there
    exact stands.idle k before task there
  · intro k f forked
    rw [grown] at forked
    rcases Nat.lt_or_ge k (forks opened).length with earlier | past
    · rw [List.getElem?_append_left earlier] at forked
      obtain ⟨task, there, facts⟩ := stands.forked k f forked
      exact ⟨task, by rw [List.getElem?_append_left (List.getElem?_eq_some_iff.mp there).1, there],
        facts⟩
    · rw [List.getElem?_append_right past] at forked
      obtain ⟨here, rfl⟩ : k = (forks opened).length ∧ ⟨pool, slot, body⟩ = f := by
        have within := (List.getElem?_eq_some_iff.mp forked).1
        simp only [List.length_singleton] at within
        exact ⟨by omega, (List.mem_singleton.mp (List.mem_of_getElem? forked)).symm⟩
      refine ⟨⟨pool, body, false⟩, ?_, rfl, List.suffix_refl _⟩
      rw [here, ← stands.count, List.getElem?_concat_length]
  · intro k f last _
    change Function.update c.handle slot _ f.slot = _
    rw [grown] at last
    rcases Nat.lt_or_ge k (forks opened).length with earlier | past
    · have other : slot ≠ f.slot :=
        last.2 (forks opened).length _ earlier List.getElem?_concat_length
      rw [Function.update_of_ne other.symm]
      refine stands.handles k f ⟨?_, fun l g after there => ?_⟩ List.not_mem_nil
      · rw [← List.getElem?_append_left earlier]
        exact last.1
      · refine last.2 l g after ?_
        rw [List.getElem?_append_left (List.getElem?_eq_some_iff.mp there).1, there]
    · have there := last.1
      rw [List.getElem?_append_right past] at there
      have within := (List.getElem?_eq_some_iff.mp there).1
      simp only [List.length_singleton] at within
      obtain rfl := List.mem_singleton.mp (List.mem_of_getElem? there)
      rw [Function.update_self, stands.count, show k = (forks opened).length by omega]
  · have step : sequential (opened ++ [.fork pool slot body]) = sequential opened ++ body := by
      simp [sequential, Instr.actions]
    rw [step, ← List.append_assoc, execAll_append, ← stands.agrees]
    simp [Config.pending]

/-- The main task joins. -/
theorem join [DecidableEq Slot] (stands : Stands exec memory passed opened joined old c)
    {slot : Slot} {rest : List (Instr Pool Slot A)} (unjoined : slot ∉ joined)
    (forked : ∃ f ∈ forks opened, f.slot = slot) {k : ℕ} {task : Task Pool A}
    (refers : c.handle slot = some k) (there : c.tasks[k]? = some task) (ended : task.todo = [])
    (first : c.First task.pool k) :
    Stands exec memory passed opened (joined ++ [slot]) old
      { c with
        main := rest
        tasks := c.tasks.set k { task with freed := true }
        handle := Function.update c.handle slot none } := by
  obtain ⟨f, member, rfl⟩ := forked
  obtain ⟨l, g, last, same⟩ := exists_isLast member
  rw [← same] at refers unjoined ⊢
  obtain rfl : old + l = k := Option.some.inj ((stands.handles l g last unjoined).symm.trans refers)
  obtain ⟨known, here, pool, -⟩ := stands.forked l g last.1
  obtain rfl := Option.some.inj (there.symm.trans here)
  have pending : (c.tasks.set (old + l) { task with freed := true }).flatMap Task.todo =
      c.pending := by
    obtain ⟨before, after, split, length⟩ := exists_around there
    rw [Config.pending, split, ← length, set_around]
    simp
  have kept : Stands exec memory passed opened joined old
      { c with main := rest, tasks := c.tasks.set (old + l) { task with freed := true } } :=
    stands.of_tasks { task with freed := true } there rfl (List.suffix_refl _) rfl rfl (by
      rw [Config.pending, pending]
      exact stands.agrees)
  refine ⟨kept.count, kept.idle, kept.forked, ?_, ?_, kept.agrees⟩
  · intro m h lastH openH
    change Function.update c.handle g.slot none h.slot = _
    rw [List.mem_append, List.mem_singleton, not_or] at openH
    rw [Function.update_of_ne openH.2]
    exact kept.handles m h lastH openH.1
  · intro m h lastH closed n upTo now hereNow samePool
    rcases List.mem_append.mp closed with earlier | this
    · exact kept.ended m h lastH earlier n upTo now hereNow samePool
    · -- the task that was joined, and those of its pool before it
      obtain ⟨rfl, rfl⟩ := lastH.unique last (List.mem_singleton.mp this)
      have within := (List.getElem?_eq_some_iff.mp there).1
      rcases eq_or_ne (old + m) n with rfl | other
      · rw [List.getElem?_set_self within] at hereNow
        obtain rfl := Option.some.inj hereNow
        exact ended
      · rw [List.getElem?_set_ne other] at hereNow
        exact first n (by omega) now hereNow (samePool.trans pool.symm)

/-- A task runs. -/
theorem run (stands : Stands exec memory passed opened joined old c) {k : ℕ} {task : Task Pool A}
    {action : A} {rest : List A} (there : c.tasks[k]? = some task)
    (next : task.todo = action :: rest)
    (exchange : ∀ l < k, ∀ earlier, c.tasks[l]? = some earlier → ∀ other ∈ earlier.todo,
      ∀ m, exec action (exec other m) = exec other (exec action m)) :
    Stands exec memory passed opened joined old
      { c with
        memory := exec action c.memory
        tasks := c.tasks.set k { task with todo := rest } } := by
  refine stands.of_tasks { task with todo := rest } there rfl
    (by rw [next]; exact List.suffix_cons _ _) rfl rfl ?_
  rw [← stands.agrees]
  obtain ⟨before, after, split, rfl⟩ := exists_around there
  have moved : exec action (execAll exec (before.flatMap Task.todo) c.memory) =
      execAll exec (before.flatMap Task.todo) (exec action c.memory) := by
    refine execAll_exchange (fun _ => True) (fun _ _ _ _ => trivial) ?_ trivial
    intro other member m _
    obtain ⟨earlier, inside, todo⟩ := List.mem_flatMap.mp member
    obtain ⟨l, place⟩ := List.mem_iff_getElem?.mp inside
    have within := (List.getElem?_eq_some_iff.mp place).1
    exact exchange l within earlier (by rw [split, List.getElem?_append_left within, place]) other
      todo m
  simp only [Config.pending, split, set_around, List.flatMap_append, List.flatMap_cons, next,
    execAll_append, execAll_cons]
  rw [moved]

/-- A phase that has joined all its slots leaves no task running. -/
theorem next_phase {phase : Phase Pool Slot A} (settles : phase.Settles)
    (stands : Stands exec memory passed phase.opening phase.joins old c) :
    Stands exec memory (passed ++ phase.code) [] [] c.tasks.length c := by
  have quiet : ∀ (k : ℕ) (task : Task Pool A), c.tasks[k]? = some task → task.todo = [] := by
    intro k task there
    by_contra busy
    obtain ⟨l, f, rfl, forked, pool, -⟩ := stands.exists_fork there busy
    obtain ⟨m, g, upTo, last, same, closed⟩ := settles.settled l f forked
    exact busy (stands.ended m g last closed (old + l) (by omega) task there (pool.trans same.symm))
  refine ⟨rfl, fun k _ => quiet k, ?_, ?_, fun _ _ _ closed => absurd closed List.not_mem_nil, ?_⟩
  · intro k f forked
    simp at forked
  · intro k f last
    simpa using last.1
  · rw [stands.agrees, Phase.code]
    simp

end Stands

/-- The main task stands in `phase`, with `done` behind it and `later` before it: it
has executed `opened` and joined `joined`, and has `left` and the slots `waits` to
come. -/
structure Position (exec : A → σ → σ) (memory : σ) (phases done : List (Phase Pool Slot A))
    (phase : Phase Pool Slot A) (later : List (Phase Pool Slot A))
    (opened left : List (Instr Pool Slot A)) (joined waits : List Slot) (old : ℕ)
    (c : Config Pool Slot A σ) : Prop where
  place : phases = done ++ phase :: later
  opening : phase.opening = opened ++ left
  joins : phase.joins = joined ++ waits
  order : joined = [] ∨ left = []
  main : c.main = left ++ waits.map .join ++ later.flatMap Phase.code
  stands : Stands exec memory (done.flatMap Phase.code) opened joined old c

/-- A code of phases that settle and are ordered. -/
structure Sound (exec : A → σ → σ) (must : A → A → Prop) (phases : List (Phase Pool Slot A)) :
    Prop where
  nonempty : phases ≠ []
  settles : ∀ phase ∈ phases, phase.Settles
  ordered : ∀ phase ∈ phases, phase.Ordered exec must

section Positions

variable {exec : A → σ → σ} {must : A → A → Prop} {memory : σ}
  {phases done later : List (Phase Pool Slot A)} {phase : Phase Pool Slot A}
  {opened left : List (Instr Pool Slot A)} {joined waits : List Slot} {old : ℕ}
  {c d : Config Pool Slot A σ}

theorem Position.mem (position : Position exec memory phases done phase later opened left joined
    waits old c) : phase ∈ phases := by
  rw [position.place]
  exact List.mem_append_right _ List.mem_cons_self

/-- What the main task has executed. -/
theorem Position.executed (position : Position exec memory phases done phase later opened left
    joined waits old c) :
    done.flatMap Phase.code ++ opened ++ joined.map .join ++ c.main =
      phases.flatMap Phase.code := by
  rw [position.main, position.place, List.flatMap_append, List.flatMap_cons, Phase.code,
    position.opening, position.joins]
  rcases position.order with rfl | rfl <;> simp

variable (exec memory phases) in
/-- The main task stands somewhere in the phases. -/
def Placed (c : Config Pool Slot A σ) : Prop :=
  ∃ done phase later opened left joined waits old,
    Position exec memory phases done phase later opened left joined waits old c

theorem placed_start (nonempty : phases ≠ []) :
    Placed exec memory phases (Config.start memory (phases.flatMap Phase.code)) := by
  obtain ⟨phase, later, rfl⟩ := List.exists_cons_of_ne_nil nonempty
  refine ⟨[], phase, later, [], phase.opening, [], phase.joins, 0, rfl, rfl, rfl, .inl rfl, ?_,
    rfl, fun k before => absurd before (Nat.not_lt_zero k), ?_, ?_,
    fun _ _ _ closed => absurd closed List.not_mem_nil, rfl⟩
  · simp [Config.start, Phase.code]
  · intro k f forked
    simp at forked
  · intro k f last
    simpa using last.1

/-- The main task stands where it has something to do next, or at the very end. -/
theorem Placed.exists_next (sound : Sound exec must phases) (placed : Placed exec memory phases c) :
    ∃ done phase later opened left joined waits old,
      Position exec memory phases done phase later opened left joined waits old c ∧
        (left ≠ [] ∨ waits ≠ [] ∨ later = []) := by
  obtain ⟨done, phase, later, opened, left, joined, waits, old, position⟩ := placed
  induction later generalizing done phase opened left joined waits old with
  | nil => exact ⟨done, phase, [], opened, left, joined, waits, old, position, .inr (.inr rfl)⟩
  | cons next later ih =>
      by_cases through : left = [] ∧ waits = []
      · obtain ⟨rfl, rfl⟩ := through
        have all := position.opening
        have closed := position.joins
        rw [List.append_nil] at all closed
        have stands := position.stands
        rw [← all, ← closed] at stands
        refine ih (done ++ [phase]) next [] next.opening [] next.joins c.tasks.length
          ⟨by rw [position.place]; simp, rfl, rfl, .inl rfl, ?_, ?_⟩
        · rw [position.main]
          simp [Phase.code]
        · rw [List.flatMap_append, List.flatMap_cons, List.flatMap_nil, List.append_nil]
          exact stands.next_phase (sound.settles phase position.mem)
      · refine ⟨done, phase, next :: later, opened, left, joined, waits, old, position, ?_⟩
        by_cases here : left = []
        · exact .inr (.inl fun none => through ⟨here, none⟩)
        · exact .inl here

/-- The next instruction of the main task is the first that is left of the opening, or
the first join. -/
theorem Position.next (position : Position exec memory phases done phase later opened left joined
    waits old c) (onward : left ≠ [] ∨ waits ≠ [] ∨ later = []) {instr : Instr Pool Slot A}
    {rest : List (Instr Pool Slot A)} (next : c.main = instr :: rest) :
    (∃ more, left = instr :: more ∧ joined = [] ∧
        rest = more ++ waits.map .join ++ later.flatMap Phase.code) ∨
      ∃ slot more, left = [] ∧ waits = slot :: more ∧ instr = .join slot ∧
        rest = more.map .join ++ later.flatMap Phase.code := by
  have main := position.main
  rw [next] at main
  cases left with
  | cons first more =>
      obtain ⟨rfl, rfl⟩ := List.cons.inj main
      exact .inl ⟨more, rfl, position.order.resolve_right (List.cons_ne_nil _ _), rfl⟩
  | nil =>
      cases waits with
      | cons slot more =>
          obtain ⟨rfl, rfl⟩ := List.cons.inj main
          exact .inr ⟨slot, more, rfl, rfl, rfl, rfl⟩
      | nil =>
          rcases onward with none | none | rfl
          · exact absurd rfl none
          · exact absurd rfl none
          · cases main

/-- Two actions that the policy does not order may be exchanged. -/
theorem Ordered.exchange {earlier action : A} (ordered : Ordered exec must earlier action)
    (allowed : ¬ must earlier action) (m : σ) :
    exec action (exec earlier m) = exec earlier (exec action m) := by
  rcases ordered with first | commute
  · exact absurd first allowed
  · exact commute m

/-- An action of a task may be exchanged with those that earlier tasks have still to
take. -/
theorem Position.exchange_run (position : Position exec memory phases done phase later opened left
    joined waits old c) (ordered : phase.Ordered exec must) {k : ℕ} {task : Task Pool A} {action : A}
    {rest : List A} (there : c.tasks[k]? = some task) (next : task.todo = action :: rest)
    (allowed : Policy.inOrder must c (some k)) :
    ∀ l < k, ∀ earlier, c.tasks[l]? = some earlier → ∀ other ∈ earlier.todo,
      ∀ m, exec action (exec other m) = exec other (exec action m) := by
  intro l before earlier place other todo m
  have free := allowed task action rest there next l before earlier place other todo
  -- both tasks were forked in this phase, the other one first
  obtain ⟨i, f, rfl, forkedF, -, suffixF⟩ :=
    position.stands.exists_fork there (by rw [next]; exact List.cons_ne_nil _ _)
  obtain ⟨j, g, rfl, forkedG, -, suffixG⟩ :=
    position.stands.exists_fork place (List.ne_nil_of_mem todo)
  have pairs := ordered.forks
  rw [position.opening, forks_append] at pairs
  obtain ⟨withinF, rfl⟩ := List.getElem?_eq_some_iff.mp forkedF
  obtain ⟨withinG, rfl⟩ := List.getElem?_eq_some_iff.mp forkedG
  have mine : action ∈ (forks opened)[i].body :=
    suffixF.subset (by rw [next]; exact List.mem_cons_self)
  exact (List.pairwise_iff_getElem.mp (List.pairwise_append.mp pairs).1 j i withinG withinF
    (by omega) other (suffixG.subset todo) action mine).exchange free m

/-- An action of the main task may be exchanged with those that the tasks have still
to take. -/
theorem Position.exchange_act {action : A} {more : List (Instr Pool Slot A)}
    (position : Position exec memory phases done phase later opened (.act action :: more)
    joined waits old c) (ordered : phase.Ordered exec must) {rest : List (Instr Pool Slot A)}
    (next : c.main = .act action :: rest) (allowed : Policy.inOrder must c none) :
    ∀ other ∈ c.pending, ∀ m, exec action (exec other m) = exec other (exec action m) := by
  intro other todo m
  obtain ⟨f, forked, body⟩ := position.stands.exists_fork_of_pending todo
  obtain ⟨instr, member, isFork⟩ := List.mem_filterMap.mp forked
  rw [Phase.Ordered, position.opening] at ordered
  exact ((List.pairwise_append.mp ordered).2.2 instr member _ List.mem_cons_self f isFork other body
    action (List.mem_singleton_self action)).exchange (allowed action rest next other todo) m

variable [DecidableEq Slot]

theorem Placed.move (sound : Sound exec must phases) (placed : Placed exec memory phases c)
    {party : Option ℕ} (allowed : Policy.inOrder must c party) (move : Move exec party c d) :
    Placed exec memory phases d := by
  obtain ⟨done, phase, later, opened, left, joined, waits, old, position, onward⟩ :=
    placed.exists_next sound
  have stands := position.stands
  have ordered := sound.ordered phase position.mem
  have settles := sound.settles phase position.mem
  cases move with
  | run there next first =>
      exact ⟨done, phase, later, opened, left, joined, waits, old, position.place,
        position.opening, position.joins, position.order, position.main,
        stands.run there next (position.exchange_run ordered there next allowed)⟩
  | act next =>
      rcases position.next onward next with ⟨more, rfl, rfl, rfl⟩ | ⟨_, _, -, -, isJoin, -⟩
      · exact ⟨done, phase, later, _, more, [], waits, old, position.place,
          by rw [position.opening, List.append_assoc, List.singleton_append], position.joins,
          .inl rfl, rfl, stands.act (position.exchange_act ordered next allowed)⟩
      · cases isJoin
  | fork next =>
      rcases position.next onward next with ⟨more, rfl, rfl, rfl⟩ | ⟨_, _, -, -, isJoin, -⟩
      · exact ⟨done, phase, later, _, more, [], waits, old, position.place,
          by rw [position.opening, List.append_assoc, List.singleton_append], position.joins,
          .inl rfl, rfl, stands.fork⟩
      · cases isJoin
  | @join _ slot _ _ _ next refers there ended first =>
      rcases position.next onward next with ⟨more, rfl, -, -⟩ | ⟨other, more, rfl, rfl, isJoin, rfl⟩
      · exact absurd (by rw [position.opening]; simp) (settles.opens slot)
      · cases isJoin
        have nodup := settles.nodup
        rw [position.joins] at nodup
        have unjoined : slot ∉ joined := fun closed =>
          List.disjoint_of_nodup_append nodup closed List.mem_cons_self
        have forked := settles.forked slot (by rw [position.joins]; simp)
        rw [position.opening, List.append_nil] at forked
        exact ⟨done, phase, later, opened, [], joined ++ [slot], more, old, position.place,
          position.opening, by rw [position.joins, List.append_assoc, List.singleton_append],
          .inr rfl, rfl, stands.join unjoined forked refers there ended first⟩

theorem Steps.placed (sound : Sound exec must phases)
    (run : Steps exec (Policy.inOrder must)
      (Config.start memory (phases.flatMap Phase.code)) c) : Placed exec memory phases c := by
  induction run with
  | refl => exact placed_start sound.nonempty
  | tail _ step ih =>
      obtain ⟨party, allowed, move⟩ := step
      exact ih.move sound allowed move

/-- **Every reachable state agrees with the sequential order.**  With the actions
still pending, its memory becomes the one that the code executed so far leaves when
every task runs where it is forked. -/
theorem Steps.agrees (sound : Sound exec must phases)
    (run : Steps exec (Policy.inOrder must)
      (Config.start memory (phases.flatMap Phase.code)) c) :
    ∃ executed, executed ++ c.main = phases.flatMap Phase.code ∧
      execAll exec c.pending c.memory = execAll exec (sequential executed) memory ∧
      ∀ action ∈ c.pending, ∃ f ∈ forks executed, action ∈ f.body := by
  obtain ⟨done, phase, later, opened, left, joined, waits, old, position⟩ := run.placed sound
  refine ⟨_, position.executed, ?_, fun action todo => ?_⟩
  · rw [position.stands.agrees]
    simp
  · obtain ⟨f, forked, body⟩ := position.stands.exists_fork_of_pending todo
    exact ⟨f, by simp [forked], body⟩

/-! ## Progress -/

/-- When some task has something to do, the oldest of these may move. -/
theorem exists_step_of_pending (busy : c.pending ≠ []) :
    ∃ d, Step exec (Policy.inOrder must) c d := by
  classical
  obtain ⟨action, todo⟩ := List.exists_mem_of_ne_nil _ busy
  obtain ⟨task, member, mine⟩ := List.mem_flatMap.mp todo
  obtain ⟨l, place⟩ := List.mem_iff_getElem?.mp member
  have working : ∃ k : ℕ, ∃ task : Task Pool A, c.tasks[k]? = some task ∧ task.todo ≠ [] :=
    ⟨l, task, place, List.ne_nil_of_mem mine⟩
  obtain ⟨oldest, there, more⟩ := Nat.find_spec working
  have before : ∀ k < Nat.find working, ∀ earlier, c.tasks[k]? = some earlier →
      earlier.todo = [] := by
    intro k earlier other here
    by_contra left
    exact Nat.find_min working earlier ⟨other, here, left⟩
  obtain ⟨next, rest, split⟩ := List.exists_cons_of_ne_nil more
  refine ⟨_, some (Nat.find working), ?_, .run there split fun k earlier other here _ =>
    before k earlier other here⟩
  intro _ _ _ _ _ k earlier other here action left
  rw [before k earlier other here] at left
  cases left

/-- When no task has anything to do, the main task may move. -/
theorem Placed.exists_step (sound : Sound exec must phases) (placed : Placed exec memory phases c)
    (quiet : c.pending = []) (unfinished : c.main ≠ []) :
    ∃ d, Step exec (Policy.inOrder must) c d := by
  have ended : ∀ (k : ℕ) (task : Task Pool A), c.tasks[k]? = some task → task.todo = [] :=
    fun k task there => List.flatMap_eq_nil_iff.mp quiet task (List.mem_of_getElem? there)
  have allowed : Policy.inOrder must c none := by
    intro _ _ _ other todo
    rw [quiet] at todo
    cases todo
  obtain ⟨instr, rest, next⟩ := List.exists_cons_of_ne_nil unfinished
  cases instr with
  | act action => exact ⟨_, none, allowed, .act next⟩
  | fork pool slot body => exact ⟨_, none, allowed, .fork next⟩
  | join slot =>
      obtain ⟨done, phase, later, opened, left, joined, waits, old, position, onward⟩ :=
        placed.exists_next sound
      have settles := sound.settles phase position.mem
      rcases position.next onward next with ⟨more, rfl, -, -⟩ | ⟨_, more, rfl, rfl, isJoin, -⟩
      · exact absurd (by rw [position.opening]; simp) (settles.opens slot)
      · cases isJoin
        have nodup := settles.nodup
        rw [position.joins] at nodup
        have unjoined : slot ∉ joined := fun closed =>
          List.disjoint_of_nodup_append nodup closed List.mem_cons_self
        obtain ⟨f, forked, rfl⟩ := settles.forked slot (by rw [position.joins]; simp)
        rw [position.opening, List.append_nil] at forked
        obtain ⟨l, g, last, same⟩ := exists_isLast forked
        have refers := position.stands.handles l g last (same ▸ unjoined)
        obtain ⟨task, there, -⟩ := position.stands.forked l g last.1
        exact ⟨_, none, allowed, .join next (same ▸ refers) there (ended _ _ there)
          fun k _ other here _ => ended k other here⟩

/-- **Every schedule that keeps the order is finite, does not get stuck and ends in
the memory of the sequential order.** -/
theorem ensures_sequential (sound : Sound exec must phases) (memory : σ) :
    Ensures exec (Policy.inOrder must : Policy Pool Slot A σ) memory (phases.flatMap Phase.code)
      (· = execAll exec (sequential (phases.flatMap Phase.code)) memory) where
  finite := (step_wellFounded exec _).apply _
  unstuck := by
    intro c run unfinished
    by_cases quiet : c.pending = []
    · exact (run.placed sound).exists_step sound quiet fun main => unfinished ⟨main, quiet⟩
    · exact exists_step_of_pending quiet
  result := by
    intro c run finished
    obtain ⟨executed, all, agrees, -⟩ := run.agrees sound
    rw [finished.1, List.append_nil] at all
    rwa [finished.2, execAll_nil, all] at agrees

end Positions

/-! ## Given schedules -/

section Play

variable [DecidableEq Pool]

/-- The tasks before the `k`-th are those of other pools, or have ended. -/
def Config.first? (c : Config Pool Slot A σ) (pool : Pool) (k : ℕ) : Bool :=
  (c.tasks.take k).all fun task => decide (task.pool ≠ pool) || task.todo.isEmpty

theorem Config.First.of_first? {c : Config Pool Slot A σ} {pool : Pool} {k : ℕ}
    (holds : c.first? pool k = true) : c.First pool k := by
  intro l before task there same
  have member : task ∈ c.tasks.take k :=
    List.mem_of_getElem? (by rw [List.getElem?_take_of_lt before, there])
  have one := List.all_eq_true.mp holds task member
  simpa [same] using one

variable [DecidableEq Slot]

/-- The next move of a party, when it has one. -/
def Config.move? (exec : A → σ → σ) (c : Config Pool Slot A σ) :
    Option ℕ → Option (Config Pool Slot A σ)
  | none =>
      match c.main with
      | [] => none
      | .act action :: rest => some { c with memory := exec action c.memory, main := rest }
      | .fork pool slot body :: rest =>
          some { c with
            main := rest
            tasks := c.tasks ++ [⟨pool, body, false⟩]
            handle := Function.update c.handle slot (some c.tasks.length) }
      | .join slot :: rest =>
          (c.handle slot).bind fun k => (c.tasks[k]?).bind fun task =>
            if task.todo.isEmpty && c.first? task.pool k then
              some { c with
                main := rest
                tasks := c.tasks.set k { task with freed := true }
                handle := Function.update c.handle slot none }
            else none
  | some k => (c.tasks[k]?).bind fun task =>
      match task.todo with
      | [] => none
      | action :: rest =>
          if c.first? task.pool k then
            some { c with
              memory := exec action c.memory
              tasks := c.tasks.set k { task with todo := rest } }
          else none

theorem Move.of_move? {exec : A → σ → σ} {c d : Config Pool Slot A σ} {party : Option ℕ}
    (moved : c.move? exec party = some d) : Move exec party c d := by
  cases party with
  | none =>
      unfold Config.move? at moved
      simp only at moved
      split at moved
      · cases moved
      · cases moved
        exact .act ‹_›
      · cases moved
        exact .fork ‹_›
      · obtain ⟨k, refers, moved⟩ := Option.bind_eq_some_iff.mp moved
        obtain ⟨task, there, moved⟩ := Option.bind_eq_some_iff.mp moved
        split_ifs at moved with ready
        cases moved
        rw [Bool.and_eq_true, List.isEmpty_iff] at ready
        exact .join ‹_› refers there ready.1 (.of_first? ready.2)
  | some k =>
      obtain ⟨task, there, moved⟩ := Option.bind_eq_some_iff.mp moved
      split at moved
      · cases moved
      · split_ifs at moved with ready
        cases moved
        exact .run there ‹_› (.of_first? ready)

/-- The moves of the listed parties, one after the other. -/
def Config.play (exec : A → σ → σ) (c : Config Pool Slot A σ) (order : List (Option ℕ)) :
    Option (Config Pool Slot A σ) :=
  order.foldlM (fun c party => c.move? exec party) c

/-- The main task takes one instruction in each of its moves. -/
theorem Config.play_main {exec : A → σ → σ} {c d : Config Pool Slot A σ}
    {order : List (Option ℕ)} (played : c.play exec order = some d) :
    d.main = c.main.drop (order.count none) := by
  induction order generalizing c with
  | nil =>
      cases played
      rfl
  | cons party order ih =>
      obtain ⟨between, moved, rest⟩ := Option.bind_eq_some_iff.mp played
      rw [ih rest, List.count_cons]
      cases Move.of_move? moved with
      | act next | fork next | join next refers there ended first => simp [next]
      | run there next first => simp

/-- A schedule that can be played is a run. -/
theorem Steps.of_play {exec : A → σ → σ} {c d : Config Pool Slot A σ} {order : List (Option ℕ)}
    (played : c.play exec order = some d) : Steps exec .free c d := by
  induction order generalizing c with
  | nil =>
      cases played
      exact .refl
  | cons party order ih =>
      obtain ⟨next, moved, rest⟩ := Option.bind_eq_some_iff.mp played
      exact .head ⟨party, trivial, .of_move? moved⟩ (ih rest)

end Play

end Parallel.ForkJoin
