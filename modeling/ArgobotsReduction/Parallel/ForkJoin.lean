import Mathlib.Algebra.GroupWithZero.Nat
import ArgobotsReduction.Parallel.Rounds

/-!
# Tasks that are forked into pools and joined

A main task runs a fixed code.  It acts on the memory, forks tasks into pools,
and joins the task that a slot refers to.  A forked task has a list of actions
to take.  The tasks of one pool run one after the other in the order of their
creation; those of different pools run at any relative speed, and beside the
main task.

A slot refers to the task forked last with it.  A task whose slot was forked
over again keeps running, and no join waits for it.  It has ended all the same
once a later task of its pool has, for a pool is a queue.

Every step consumes work, so every run is finite (`step_wellFounded`).

A code is made of phases: a phase forks tasks, possibly with actions in between,
and then joins some of the slots.  A phase settles when these joins leave none of
its tasks running, and it is ordered when actions that are not may be exchanged.
-/

set_option autoImplicit false

namespace Parallel.ForkJoin

universe u v w x

/-- One instruction of the main task.  A join frees the task it has waited for. -/
inductive Instr (Pool : Type u) (Slot : Type v) (A : Type w) where
  | act (action : A)
  | fork (pool : Pool) (slot : Slot) (body : List A)
  | join (slot : Slot)

/-- A task that was forked, with the actions it has still to take. -/
structure Task (Pool : Type u) (A : Type w) where
  pool : Pool
  todo : List A
  freed : Bool

/-- A state: the memory, what the main task has still to do, the tasks in the
order of their creation, and the task that every slot refers to. -/
structure Config (Pool : Type u) (Slot : Type v) (A : Type w) (σ : Type x) where
  memory : σ
  main : List (Instr Pool Slot A)
  tasks : List (Task Pool A)
  handle : Slot → Option ℕ

variable {Pool : Type u} {Slot : Type v} {A : Type w} {σ : Type x}

namespace Config

/-- The main task at the start of its code. -/
def start (memory : σ) (main : List (Instr Pool Slot A)) : Config Pool Slot A σ :=
  ⟨memory, main, [], fun _ => none⟩

/-- The tasks of the pool that were created before the `k`-th task have ended. -/
def First (c : Config Pool Slot A σ) (pool : Pool) (k : ℕ) : Prop :=
  ∀ l < k, ∀ task, c.tasks[l]? = some task → task.pool = pool → task.todo = []

/-- The actions that the tasks have still to take. -/
def pending (c : Config Pool Slot A σ) : List A := c.tasks.flatMap Task.todo

/-- The main task and all others have come to their ends. -/
def Finished (c : Config Pool Slot A σ) : Prop := c.main = [] ∧ c.pending = []

end Config

/-! ## Moves -/

section Moves

variable [DecidableEq Slot]

/-- One move: of the main task, or of the task with the given number. -/
inductive Move (exec : A → σ → σ) :
    Option ℕ → Config Pool Slot A σ → Config Pool Slot A σ → Prop where
  | act {c : Config Pool Slot A σ} {action : A} {rest : List (Instr Pool Slot A)}
      (next : c.main = .act action :: rest) :
      Move exec none c { c with memory := exec action c.memory, main := rest }
  | fork {c : Config Pool Slot A σ} {pool : Pool} {slot : Slot} {body : List A}
      {rest : List (Instr Pool Slot A)} (next : c.main = .fork pool slot body :: rest) :
      Move exec none c
        { c with
          main := rest
          tasks := c.tasks ++ [⟨pool, body, false⟩]
          handle := Function.update c.handle slot (some c.tasks.length) }
  | join {c : Config Pool Slot A σ} {slot : Slot} {rest : List (Instr Pool Slot A)} {k : ℕ}
      {task : Task Pool A} (next : c.main = .join slot :: rest)
      (refers : c.handle slot = some k) (there : c.tasks[k]? = some task)
      (ended : task.todo = []) (first : c.First task.pool k) :
      Move exec none c
        { c with
          main := rest
          tasks := c.tasks.set k { task with freed := true }
          handle := Function.update c.handle slot none }
  | run {c : Config Pool Slot A σ} {k : ℕ} {task : Task Pool A} {action : A} {rest : List A}
      (there : c.tasks[k]? = some task) (next : task.todo = action :: rest)
      (first : c.First task.pool k) :
      Move exec (some k) c
        { c with
          memory := exec action c.memory
          tasks := c.tasks.set k { task with todo := rest } }

/-- Who may move in which state. -/
abbrev Policy (Pool : Type u) (Slot : Type v) (A : Type w) (σ : Type x) :=
  Config Pool Slot A σ → Option ℕ → Prop

/-- The policy that lets everybody move. -/
def Policy.free : Policy Pool Slot A σ := fun _ _ => True

/-- The policy under which an action is taken only when no task created earlier
has still to take an action that must come before it. -/
def Policy.inOrder (must : A → A → Prop) : Policy Pool Slot A σ
  | c, none => ∀ action rest, c.main = .act action :: rest →
      ∀ other ∈ c.pending, ¬ must other action
  | c, some k => ∀ task action rest, c.tasks[k]? = some task → task.todo = action :: rest →
      ∀ l < k, ∀ earlier, c.tasks[l]? = some earlier → ∀ other ∈ earlier.todo,
        ¬ must other action

/-- One step under a policy. -/
def Step (exec : A → σ → σ) (may : Policy Pool Slot A σ) (c d : Config Pool Slot A σ) : Prop :=
  ∃ party, may c party ∧ Move exec party c d

/-- Finitely many steps. -/
abbrev Steps (exec : A → σ → σ) (may : Policy Pool Slot A σ) :
    Config Pool Slot A σ → Config Pool Slot A σ → Prop :=
  Relation.ReflTransGen (Step exec may)

/-- Every schedule of the code is finite, none of them gets stuck before all
tasks have ended, and at the end the memory has a property. -/
structure Ensures (exec : A → σ → σ) (may : Policy Pool Slot A σ) (memory : σ)
    (code : List (Instr Pool Slot A)) (post : σ → Prop) : Prop where
  finite : Acc (fun d c => Step exec may c d) (Config.start memory code)
  unstuck : ∀ c, Steps exec may (Config.start memory code) c → ¬ c.Finished →
    ∃ d, Step exec may c d
  result : ∀ c, Steps exec may (Config.start memory code) c → c.Finished → post c.memory

theorem Ensures.imp {exec : A → σ → σ} {may : Policy Pool Slot A σ} {memory : σ}
    {code : List (Instr Pool Slot A)} {post weaker : σ → Prop}
    (ensures : Ensures exec may memory code post) (implies : ∀ m, post m → weaker m) :
    Ensures exec may memory code weaker :=
  ⟨ensures.finite, ensures.unstuck, fun c run finished => implies _ (ensures.result c run finished)⟩

/-- Some schedule of the code ends. -/
theorem Ensures.exists_finished {exec : A → σ → σ} {may : Policy Pool Slot A σ} {memory : σ}
    {code : List (Instr Pool Slot A)} {post : σ → Prop}
    (ensures : Ensures exec may memory code post) :
    ∃ c, Steps exec may (Config.start memory code) c ∧ c.Finished := by
  have ends : ∀ c, Acc (fun d c => Step exec may c d) c →
      Steps exec may (Config.start memory code) c →
        ∃ d, Steps exec may (Config.start memory code) d ∧ d.Finished := by
    intro c finite
    induction finite with
    | intro c _ ih =>
        intro run
        by_cases finished : c.Finished
        · exact ⟨c, run, finished⟩
        · obtain ⟨d, step⟩ := ensures.unstuck c run finished
          exact ih d step (run.tail step)
  exact ends _ ensures.finite .refl

/-- A policy that lets more move has more schedules. -/
theorem Steps.mono {exec : A → σ → σ} {may more : Policy Pool Slot A σ}
    (weaker : ∀ c party, may c party → more c party) {c d : Config Pool Slot A σ}
    (steps : Steps exec may c d) : Steps exec more c d := by
  refine Relation.ReflTransGen.mono (fun c d step => ?_) _ _ steps
  obtain ⟨party, allowed, move⟩ := step
  exact ⟨party, weaker c party allowed, move⟩

end Moves

/-! ## A task of the list of tasks -/

/-- A list around its `k`-th element. -/
theorem exists_around {α : Type u} {items : List α} {k : ℕ} {item : α}
    (there : items[k]? = some item) :
    ∃ before after, items = before ++ item :: after ∧ before.length = k := by
  obtain ⟨within, rfl⟩ := List.getElem?_eq_some_iff.mp there
  refine ⟨items.take k, items.drop (k + 1), ?_, List.length_take_of_le within.le⟩
  rw [List.getElem_cons_drop, List.take_append_drop]

theorem set_around {α : Type u} (before after : List α) (item other : α) :
    (before ++ item :: after).set before.length other = before ++ other :: after := by
  simp

/-! ## Every run is finite -/

section Termination

variable [DecidableEq Slot]

/-- The work of one instruction, the actions of the task it forks included. -/
def Instr.work : Instr Pool Slot A → ℕ
  | .act _ | .join _ => 1
  | .fork _ _ body => body.length + 1

/-- The work a state has left. -/
def Config.work (c : Config Pool Slot A σ) : ℕ :=
  (c.main.map Instr.work).sum + c.pending.length

theorem Move.work_lt {exec : A → σ → σ} {party : Option ℕ} {c d : Config Pool Slot A σ}
    (move : Move exec party c d) : d.work < c.work := by
  cases move with
  | act next => simp [Config.work, Config.pending, next, Instr.work]
  | fork next =>
      simp only [Config.work, Config.pending, next, Instr.work, List.flatMap_append,
        List.length_append, List.flatMap_cons, List.flatMap_nil, List.append_nil, List.map_cons,
        List.sum_cons]
      omega
  | join next refers there ended first =>
      obtain ⟨before, after, split, rfl⟩ := exists_around there
      simp [Config.work, Config.pending, next, Instr.work, split, ended]
  | run there next first =>
      obtain ⟨before, after, split, rfl⟩ := exists_around there
      simp only [Config.work, Config.pending, split, set_around, List.flatMap_append,
        List.flatMap_cons, List.length_append, next, List.length_cons]
      omega

/-- **Every run is finite**, under any policy and from any state. -/
theorem step_wellFounded (exec : A → σ → σ) (may : Policy Pool Slot A σ) :
    WellFounded fun d c : Config Pool Slot A σ => Step exec may c d :=
  Subrelation.wf (fun ⟨_, _, move⟩ => move.work_lt) (measure Config.work).wf

end Termination

/-! ## Phases -/

/-- A task as it is forked. -/
structure Fork (Pool : Type u) (Slot : Type v) (A : Type w) where
  pool : Pool
  slot : Slot
  body : List A

namespace Instr

/-- The actions of an instruction, those of the task it forks included. -/
def actions : Instr Pool Slot A → List A
  | .act action => [action]
  | .fork _ _ body => body
  | .join _ => []

/-- The task an instruction forks. -/
def fork? : Instr Pool Slot A → Option (Fork Pool Slot A)
  | .fork pool slot body => some ⟨pool, slot, body⟩
  | .act _ | .join _ => none

theorem fork?_eq_some {instr : Instr Pool Slot A} {f : Fork Pool Slot A}
    (forks : instr.fork? = some f) : instr.actions = f.body := by
  cases instr with
  | act action => cases forks
  | fork pool slot body =>
      cases forks
      rfl
  | join slot => cases forks

end Instr

/-- The actions of a code when every task runs to its end where it is forked. -/
def sequential (code : List (Instr Pool Slot A)) : List A := code.flatMap Instr.actions

/-- The tasks a code forks. -/
def forks (code : List (Instr Pool Slot A)) : List (Fork Pool Slot A) :=
  code.filterMap Instr.fork?

/-- The `k`-th fork is the last one with its slot. -/
def IsLast (items : List (Fork Pool Slot A)) (k : ℕ) (f : Fork Pool Slot A) : Prop :=
  items[k]? = some f ∧ ∀ l g, k < l → items[l]? = some g → g.slot ≠ f.slot

theorem IsLast.unique {items : List (Fork Pool Slot A)} {k l : ℕ} {f g : Fork Pool Slot A}
    (first : IsLast items k f) (second : IsLast items l g) (same : f.slot = g.slot) :
    k = l ∧ f = g := by
  rcases Nat.lt_trichotomy k l with before | rfl | after
  · exact absurd same.symm (first.2 l g before second.1)
  · exact ⟨rfl, Option.some.inj (first.1.symm.trans second.1)⟩
  · exact absurd same (second.2 k f after first.1)

/-- A slot that was forked with has a last fork. -/
theorem exists_isLast {items : List (Fork Pool Slot A)} {f : Fork Pool Slot A}
    (member : f ∈ items) : ∃ k g, IsLast items k g ∧ g.slot = f.slot := by
  induction items using List.reverseRecOn with
  | nil => cases member
  | append_singleton items item ih =>
      by_cases same : item.slot = f.slot
      · refine ⟨items.length, item, ⟨by simp, fun l g after there => ?_⟩, same⟩
        have within := (List.getElem?_eq_some_iff.mp there).1
        simp only [List.length_append, List.length_singleton] at within
        omega
      · have inside : f ∈ items := by
          rcases List.mem_append.mp member with inside | last
          · exact inside
          · exact absurd (congrArg Fork.slot (List.mem_singleton.mp last)).symm same
        obtain ⟨k, g, last, slot⟩ := ih inside
        have within := (List.getElem?_eq_some_iff.mp last.1).1
        refine ⟨k, g, ⟨by rw [List.getElem?_append_left within, last.1], ?_⟩, slot⟩
        intro l h after there
        rcases Nat.lt_or_ge l items.length with earlier | past
        · exact last.2 l h after (by rwa [List.getElem?_append_left earlier] at there)
        · rw [List.getElem?_append_right past] at there
          obtain rfl := List.mem_singleton.mp (List.mem_of_getElem? there)
          rwa [slot]

/-- A phase: what the main task does until it joins, and the slots it joins. -/
structure Phase (Pool : Type u) (Slot : Type v) (A : Type w) where
  opening : List (Instr Pool Slot A)
  joins : List Slot

def Phase.code (phase : Phase Pool Slot A) : List (Instr Pool Slot A) :=
  phase.opening ++ phase.joins.map .join

/-- A phase that joins only what it forks, joins every slot once, and whose joins
leave none of its tasks running. -/
structure Phase.Settles (phase : Phase Pool Slot A) : Prop where
  opens : ∀ slot, .join slot ∉ phase.opening
  nodup : phase.joins.Nodup
  forked : ∀ slot ∈ phase.joins, ∃ f ∈ forks phase.opening, f.slot = slot
  settled : ∀ k f, (forks phase.opening)[k]? = some f → ∃ l g, k ≤ l ∧
    IsLast (forks phase.opening) l g ∧ g.pool = f.pool ∧ g.slot ∈ phase.joins

/-- Actions that may be exchanged, or that a policy orders. -/
def Ordered (exec : A → σ → σ) (must : A → A → Prop) (earlier later : A) : Prop :=
  must earlier later ∨ ∀ m, exec later (exec earlier m) = exec earlier (exec later m)

/-- The actions of the task that the first instruction forks are ordered with those of
the second. -/
def Instr.Ordered (exec : A → σ → σ) (must : A → A → Prop) (first second : Instr Pool Slot A) :
    Prop :=
  ∀ f, first.fork? = some f → ∀ earlier ∈ f.body, ∀ later ∈ second.actions,
    ForkJoin.Ordered exec must earlier later

/-- The tasks of a phase are ordered with all that the main task does or forks after
them. -/
def Phase.Ordered (exec : A → σ → σ) (must : A → A → Prop) (phase : Phase Pool Slot A) : Prop :=
  phase.opening.Pairwise (Instr.Ordered exec must)

/-- An instruction that is no fork is ordered with all others. -/
theorem Instr.ordered_of_mem_acts {exec : A → σ → σ} {must : A → A → Prop} {acts : List A}
    {first : Instr Pool Slot A} (member : first ∈ acts.map .act) (second : Instr Pool Slot A) :
    Instr.Ordered exec must first second := by
  obtain ⟨action, -, rfl⟩ := List.mem_map.mp member
  intro f isFork
  cases isFork

@[simp] theorem sequential_nil : sequential ([] : List (Instr Pool Slot A)) = [] := rfl

@[simp] theorem sequential_append (first second : List (Instr Pool Slot A)) :
    sequential (first ++ second) = sequential first ++ sequential second :=
  List.flatMap_append

@[simp] theorem sequential_joins (slots : List Slot) :
    sequential (slots.map .join : List (Instr Pool Slot A)) = [] := by
  simp [sequential, List.flatMap_map, Instr.actions]

@[simp] theorem sequential_acts (acts : List A) :
    sequential (acts.map .act : List (Instr Pool Slot A)) = acts := by
  simp [sequential, List.flatMap_map, Instr.actions]

@[simp] theorem forks_nil : forks ([] : List (Instr Pool Slot A)) = [] := rfl

@[simp] theorem forks_append (first second : List (Instr Pool Slot A)) :
    forks (first ++ second) = forks first ++ forks second :=
  List.filterMap_append

@[simp] theorem forks_acts (acts : List A) :
    forks (acts.map .act : List (Instr Pool Slot A)) = [] := by
  simp [forks, Instr.fork?, List.filterMap_eq_nil_iff]

/-- A phase settles when it forks a task for each slot at last, those before them are
in the pools of these, and it joins all slots. -/
theorem Phase.settles_of_slots {phase : Phase Pool ℕ A} {n : ℕ} {early : List (Fork Pool ℕ A)}
    {last : ℕ → Fork Pool ℕ A} (opens : ∀ slot, .join slot ∉ phase.opening)
    (forked : forks phase.opening = early ++ (List.range n).map last)
    (slots : ∀ i, (last i).slot = i) (joins : phase.joins = List.range n)
    (covered : ∀ f ∈ early, ∃ i < n, (last i).pool = f.pool) : phase.Settles := by
  have isLast : ∀ i < n, IsLast (forks phase.opening) (early.length + i) (last i) := by
    intro i within
    rw [forked]
    refine ⟨by simp [within], fun l g after there => ?_⟩
    rw [List.getElem?_append_right (by omega), List.getElem?_map] at there
    obtain ⟨k, place, rfl⟩ := Option.map_eq_some_iff.mp there
    obtain ⟨inside, rfl⟩ := List.getElem?_eq_some_iff.mp place
    rw [List.getElem_range, slots, slots]
    omega
  refine ⟨opens, joins ▸ List.nodup_range, ?_, ?_⟩
  · intro slot member
    rw [joins, List.mem_range] at member
    exact ⟨last slot, List.mem_of_getElem? (isLast slot member).1, slots slot⟩
  · intro k f there
    rcases Nat.lt_or_ge k early.length with before | after
    · rw [forked, List.getElem?_append_left before] at there
      obtain ⟨i, within, pool⟩ := covered f (List.mem_of_getElem? there)
      refine ⟨_, _, by omega, isLast i within, pool, ?_⟩
      rwa [slots, joins, List.mem_range]
    · obtain ⟨i, rfl⟩ := Nat.exists_eq_add_of_le after
      have within : i < n := by
        have inside := (List.getElem?_eq_some_iff.mp there).1
        rw [forked, List.length_append, List.length_map, List.length_range] at inside
        omega
      obtain rfl := Option.some.inj (there.symm.trans (isLast i within).1)
      refine ⟨_, _, le_rfl, isLast i within, rfl, ?_⟩
      rwa [slots, joins, List.mem_range]

/-- The tasks of an ordered phase are ordered among each other. -/
theorem Phase.Ordered.forks {exec : A → σ → σ} {must : A → A → Prop} {phase : Phase Pool Slot A}
    (ordered : phase.Ordered exec must) :
    (forks phase.opening).Pairwise fun f g => ∀ earlier ∈ f.body, ∀ later ∈ g.body,
      ForkJoin.Ordered exec must earlier later := by
  refine List.Pairwise.filterMap _ ?_ ordered
  intro first second apart f isFirst g isSecond earlier mine later theirs
  exact apart f isFirst earlier mine later (Instr.fork?_eq_some isSecond ▸ theirs)

end Parallel.ForkJoin
