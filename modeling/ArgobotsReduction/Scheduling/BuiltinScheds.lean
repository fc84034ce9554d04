import Mathlib.Algebra.Group.Nat.Defs
import Mathlib.Data.List.Infix
import Mathlib.Data.Nat.Basic
import ArgobotsReduction.Parallel.Conversations

/-!
# The built-in schedulers

`sched_run` of the four schedulers of the library: `basic`, `basic_wait`, `prio` and `randws`.  A
pass of their loops looks for one thread in the pools, and after `event_freq` passes (or pops, for
`basic`) the scheduler checks for events and asks whether it has to stop.

Other execution streams push and pop at the same time, so that nothing is said about the answers
of a pool.  The results are about every run, also one in progress.

* A thread that has been popped is scheduled before anything else, and nothing else is scheduled
  (`popped_scheduled`).
* `basic`, `basic_wait` and `prio` take a thread from a pool only after they have found all the
  pools before it empty; `randws` steals only after it has found its own pool empty
  (`earlier_pools_empty`).
* Between two checks there is a limited number of pops (`events_checked`).
* A scheduler returns after an answer that it has to stop.  `basic_wait` also returns after a thread
  that it has waited for, without asking; the loop of the main scheduler then calls it again
  (`returns_after`).
-/

set_option autoImplicit false

namespace ArgobotsReduction.Scheduling.BuiltinScheds

open Parallel Conversation

/-! ## What a scheduler asks for -/

/-- The calls of `sched_run`.  Pools are their positions in the list of the scheduler, and `popWait`
is the pop that waits, on the first pool. -/
inductive Call where
  | pop (pool : ℕ)
  | popWait
  | schedule (thread : ℕ)
  | checkEvents
  | hasToStop
  | random

/-- What a call returns; `ABT_THREAD_NULL` is `none`. -/
abbrev Result : Call → Type
  | .pop _ => Option ℕ
  | .popWait => Option ℕ
  | .schedule _ => Unit
  | .checkEvents => Unit
  | .hasToStop => Bool
  | .random => ℕ

abbrev Said := List (Exchange Result)

def pop (pool : ℕ) : Conversation Result (Option ℕ) := question (Call.pop pool)

def popWait : Conversation Result (Option ℕ) := question Call.popWait

def schedule (thread : ℕ) : Conversation Result Unit := question (Call.schedule thread)

def checkEvents : Conversation Result Unit := question Call.checkEvents

def hasToStop : Conversation Result Bool := question Call.hasToStop

def random : Conversation Result ℕ := question Call.random

/-! ## One pass of the loops -/

/-- A `uint32_t` -/
def wrap (count : ℕ) : ℕ := count % 2 ^ 32

/-- The loop on the pools, with so many left: whether a thread has run, and how often the scheduler
has popped -/
def runFirst : ℕ → ℕ → Conversation Result (Bool × ℕ)
  | 0, _ => pure (false, 0)
  | left + 1, pool => do
      match ← pop pool with
      | some thread => do
          schedule thread
          pure (true, 1)
      | none => do
          let (ran, pops) ← runFirst left (pool + 1)
          pure (ran, pops + 1)

/-- The check for events.  The result is the new count, unless the scheduler has to stop. -/
def check : Conversation Result (Option ℕ) := do
  checkEvents
  if ← hasToStop then pure none else pure (some 0)

/-- The check, when it is time -/
def checkAt (eventFreq count : ℕ) : Conversation Result (Option ℕ) :=
  if eventFreq ≤ count then check else pure (some count)

def basicPass (eventFreq numPools popCount : ℕ) : Conversation Result (Option ℕ) := do
  let (_, pops) ← runFirst numPools 0
  checkAt eventFreq (wrap (popCount + pops))

def prioPass (eventFreq numPools workCount : ℕ) : Conversation Result (Option ℕ) := do
  let _ ← runFirst numPools 0
  checkAt eventFreq (wrap (workCount + 1))

def basicWaitPass (eventFreq numPools workCount : ℕ) : Conversation Result (Option ℕ) := do
  let (ran, _) ← runFirst numPools 0
  if ran then checkAt eventFreq (wrap (workCount + 1))
  else do
    match ← popWait with
    | some thread => do
        -- This `break` leaves the loop of `sched_run`
        schedule thread
        pure none
    | none => check

/-- The pool to steal from -/
def stealTarget (numPools : ℕ) : Conversation Result ℕ :=
  if numPools = 2 then pure 1
  else do
    let number ← random
    pure (number % (numPools - 1) + 1)

def runStolen (numPools : ℕ) : Conversation Result Unit := do
  let target ← stealTarget numPools
  match ← pop target with
  | some thread => schedule thread
  | none => pure ()

def randwsPass (eventFreq numPools workCount : ℕ) : Conversation Result (Option ℕ) := do
  match ← pop 0 with
  | some thread => do
      schedule thread
      checkAt eventFreq (wrap (workCount + 1))
  | none =>
      if 1 < numPools then do
        runStolen numPools
        checkAt eventFreq (wrap (workCount + 1))
      else checkAt eventFreq (wrap (workCount + 1))

inductive Kind where
  | basic
  | basicWait
  | prio
  | randws
  deriving DecidableEq

def Kind.pass (eventFreq numPools : ℕ) : Kind → ℕ → Conversation Result (Option ℕ)
  | .basic => basicPass eventFreq numPools
  | .basicWait => basicWaitPass eventFreq numPools
  | .prio => prioPass eventFreq numPools
  | .randws => randwsPass eventFreq numPools

/-- What `sched_run` has exchanged so far.  Without pools it returns at once. -/
def Running (kind : Kind) (eventFreq numPools : ℕ) (said : Said) : Prop :=
  if numPools = 0 then said = [] else InProgress (kind.pass eventFreq numPools) 0 said

/-- What `sched_run` has exchanged when it returns -/
def Returned (kind : Kind) (eventFreq numPools : ℕ) (said : Said) : Prop :=
  if numPools = 0 then said = [] else Loop (kind.pass eventFreq numPools) 0 said none

/-! ## What a pass exchanges -/

/-- Pools that have been found empty -/
def misses (pool count : ℕ) : Said :=
  (List.range' pool count).map fun i => ⟨Call.pop i, (none : Option ℕ)⟩

/-- A thread that has been found and scheduled -/
def ran (pool thread : ℕ) : Said :=
  [⟨Call.pop pool, some thread⟩, ⟨Call.schedule thread, ()⟩]

def checked (stop : Bool) : Said := [⟨Call.checkEvents, ()⟩, ⟨Call.hasToStop, stop⟩]

variable {said : Said}

theorem talk_runFirst {left pool pops : ℕ} {found : Bool}
    (talk : Talk (runFirst left pool) said (found, pops)) :
    (found = false ∧ pops = left ∧ said = misses pool left) ∨
      ∃ before thread, before < left ∧ found = true ∧ pops = before + 1 ∧
        said = misses pool before ++ ran (pool + before) thread := by
  induction left generalizing pool said pops with
  | zero =>
      obtain ⟨rfl, same⟩ := talk_pure.mp talk
      obtain ⟨rfl, rfl⟩ := Prod.mk.inj same
      exact Or.inl ⟨rfl, rfl, rfl⟩
  | succ left ih =>
      obtain ⟨first, popped, later, asked, rest, rfl⟩ := talk_bind.mp talk
      obtain rfl := talk_question.mp asked
      cases popped with
      | some thread =>
          obtain ⟨second, _, last, scheduled, ends, rfl⟩ := talk_bind.mp rest
          obtain rfl := talk_question.mp scheduled
          obtain ⟨rfl, same⟩ := talk_pure.mp ends
          obtain ⟨rfl, rfl⟩ := Prod.mk.inj same
          exact Or.inr ⟨0, thread, Nat.succ_pos left, rfl, rfl, rfl⟩
      | none =>
          obtain ⟨inner, ⟨found', pops'⟩, last, looked, ends, rfl⟩ := talk_bind.mp rest
          obtain ⟨rfl, same⟩ := talk_pure.mp ends
          obtain ⟨rfl, rfl⟩ := Prod.mk.inj same
          rcases ih looked with ⟨rfl, rfl, rfl⟩ | ⟨before, thread, below, rfl, rfl, rfl⟩
          · refine Or.inl ⟨rfl, rfl, ?_⟩
            rw [List.append_nil]
            rfl
          · refine Or.inr ⟨before + 1, thread, by omega, rfl, rfl, ?_⟩
            have next : pool + 1 + before = pool + (before + 1) := by omega
            rw [List.append_nil, next]
            rfl

theorem talk_check {result : Option ℕ} (talk : Talk check said result) :
    ∃ stop, said = checked stop ∧ result = if stop then none else some 0 := by
  obtain ⟨first, _, later, asked, rest, rfl⟩ := talk_bind.mp talk
  obtain ⟨second, stop, last, answered, ends, rfl⟩ := talk_bind.mp rest
  obtain rfl := talk_question.mp asked
  obtain rfl := talk_question.mp answered
  refine ⟨stop, ?_⟩
  cases stop with
  | false =>
      obtain ⟨rfl, rfl⟩ := talk_pure.mp ends
      exact ⟨rfl, rfl⟩
  | true =>
      obtain ⟨rfl, rfl⟩ := talk_pure.mp ends
      exact ⟨rfl, rfl⟩

/-- The end of a pass: the count has not come far enough, or the scheduler checks -/
inductive Ends (eventFreq count : ℕ) : Said → Option ℕ → Prop where
  | early (few : count < eventFreq) : Ends eventFreq count [] (some count)
  | goOn : Ends eventFreq count (checked false) (some 0)
  | stop : Ends eventFreq count (checked true) none

theorem ends_of_check {eventFreq count : ℕ} {result : Option ℕ} (talk : Talk check said result) :
    Ends eventFreq count said result := by
  obtain ⟨stop, rfl, rfl⟩ := talk_check talk
  cases stop with
  | false => exact .goOn
  | true => exact .stop

theorem ends_of_checkAt {eventFreq count : ℕ} {result : Option ℕ}
    (talk : Talk (checkAt eventFreq count) said result) : Ends eventFreq count said result := by
  rw [checkAt] at talk
  split_ifs at talk with due
  · exact ends_of_check talk
  · obtain ⟨rfl, rfl⟩ := talk_pure.mp talk
    exact .early (Nat.not_le.mp due)

/-- A thread that `basic_wait` has waited for -/
def waited (thread : ℕ) : Said := [⟨Call.popWait, some thread⟩, ⟨Call.schedule thread, ()⟩]

/-- How a scheduler looks for a thread, and how often it pops -/
inductive Looks (numPools : ℕ) : Kind → ℕ → Said → Prop where
  | found {kind : Kind} {before thread : ℕ} (scans : kind ≠ .randws) (below : before < numPools) :
      Looks numPools kind (before + 1) (misses 0 before ++ ran before thread)
  | empty {kind : Kind} (scans : kind = .basic ∨ kind = .prio) :
      Looks numPools kind numPools (misses 0 numPools)
  | own {thread : ℕ} : Looks numPools .randws 1 (ran 0 thread)
  | alone : Looks numPools .randws 1 (misses 0 1)
  | stolen {chance : Said} {target thread : ℕ}
      (drawn : chance = [] ∨ ∃ number : ℕ, chance = [⟨Call.random, number⟩])
      (other : 0 < target) (below : target < numPools) :
      Looks numPools .randws 2 (misses 0 1 ++ chance ++ ran target thread)
  | missed {chance : Said} {target : ℕ}
      (drawn : chance = [] ∨ ∃ number : ℕ, chance = [⟨Call.random, number⟩]) :
      Looks numPools .randws 2 (misses 0 1 ++ chance ++ misses target 1)

/-- The count after a pass that does not check -/
def Kind.advance (count pops : ℕ) : Kind → ℕ
  | .basic => wrap (count + pops)
  | .basicWait | .prio | .randws => wrap (count + 1)

theorem talk_stealTarget {numPools target : ℕ} (several : 1 < numPools)
    (talk : Talk (stealTarget numPools) said target) :
    (said = [] ∨ ∃ number : ℕ, said = [⟨Call.random, number⟩]) ∧ 0 < target ∧
      target < numPools := by
  rw [stealTarget] at talk
  split_ifs at talk with two
  · obtain ⟨rfl, rfl⟩ := talk_pure.mp talk
    exact ⟨Or.inl rfl, Nat.one_pos, several⟩
  · obtain ⟨first, number, later, asked, rest, rfl⟩ := talk_bind.mp talk
    obtain rfl := talk_question.mp asked
    obtain ⟨rfl, rfl⟩ := talk_pure.mp rest
    have inside : number % (numPools - 1) < numPools - 1 := Nat.mod_lt _ (by omega)
    exact ⟨Or.inr ⟨number, rfl⟩, Nat.succ_pos _, by omega⟩

theorem talk_runStolen {numPools : ℕ} (several : 1 < numPools) {ended : Unit}
    (talk : Talk (runStolen numPools) said ended) :
    Looks numPools .randws 2 (misses 0 1 ++ said) := by
  obtain ⟨chance, target, later, drawn, rest, rfl⟩ := talk_bind.mp talk
  obtain ⟨second, popped, last, asked, ends, rfl⟩ := talk_bind.mp rest
  obtain ⟨chosen, other, below⟩ := talk_stealTarget several drawn
  obtain rfl := talk_question.mp asked
  rw [← List.append_assoc]
  cases popped with
  | some thread =>
      obtain rfl := talk_question.mp ends
      exact .stolen chosen other below
  | none =>
      obtain ⟨rfl, -⟩ := talk_pure.mp ends
      exact .missed chosen

/-- **What a pass exchanges**: the scheduler looks for a thread, and checks if it is time.  When
`basic_wait` has found none, it waits, and then it leaves the loop or checks. -/
theorem talk_pass {kind : Kind} {eventFreq numPools count : ℕ} {result : Option ℕ}
    (talk : Talk (kind.pass eventFreq numPools count) said result) :
    (∃ pops looked last, said = looked ++ last ∧ Looks numPools kind pops looked ∧
        Ends eventFreq (kind.advance count pops) last result) ∨
      (kind = .basicWait ∧ ∃ stop, result = (if stop then none else some 0) ∧
        said = misses 0 numPools ++ [⟨Call.popWait, (none : Option ℕ)⟩] ++ checked stop) ∨
      (kind = .basicWait ∧ result = none ∧
        ∃ thread, said = misses 0 numPools ++ waited thread) := by
  cases kind with
  | basic =>
      obtain ⟨looked, ⟨found, pops⟩, last, scan, ends, rfl⟩ := talk_bind.mp talk
      have finish := ends_of_checkAt ends
      rcases talk_runFirst scan with ⟨rfl, rfl, rfl⟩ | ⟨before, thread, below, rfl, rfl, rfl⟩
      · exact Or.inl ⟨_, _, last, rfl, .empty (Or.inl rfl), finish⟩
      · rw [Nat.zero_add]
        exact Or.inl ⟨_, _, last, rfl, .found (by decide) below, finish⟩
  | basicWait =>
      obtain ⟨looked, ⟨found, pops⟩, last, scan, rest, rfl⟩ := talk_bind.mp talk
      rcases talk_runFirst scan with ⟨rfl, rfl, rfl⟩ | ⟨before, thread, below, rfl, rfl, rfl⟩
      · obtain ⟨second, popped, later, asked, ends, rfl⟩ := talk_bind.mp rest
        obtain rfl := talk_question.mp asked
        cases popped with
        | some thread =>
            obtain ⟨third, _, none, scheduled, stopped, rfl⟩ := talk_bind.mp ends
            obtain rfl := talk_question.mp scheduled
            obtain ⟨rfl, rfl⟩ := talk_pure.mp stopped
            exact Or.inr (Or.inr ⟨rfl, rfl, thread, rfl⟩)
        | none =>
            obtain ⟨stop, rfl, rfl⟩ := talk_check ends
            exact Or.inr (Or.inl ⟨rfl, stop, rfl, by rw [List.append_assoc]⟩)
      · have finish := ends_of_checkAt rest
        rw [Nat.zero_add]
        exact Or.inl ⟨_, _, last, rfl, .found (by decide) below, finish⟩
  | prio =>
      obtain ⟨looked, ⟨found, pops⟩, last, scan, ends, rfl⟩ := talk_bind.mp talk
      have finish := ends_of_checkAt ends
      rcases talk_runFirst scan with ⟨rfl, rfl, rfl⟩ | ⟨before, thread, below, rfl, rfl, rfl⟩
      · exact Or.inl ⟨_, _, last, rfl, .empty (Or.inr rfl), finish⟩
      · rw [Nat.zero_add]
        exact Or.inl ⟨_, _, last, rfl, .found (by decide) below, finish⟩
  | randws =>
      obtain ⟨first, popped, later, asked, rest, rfl⟩ := talk_bind.mp talk
      obtain rfl := talk_question.mp asked
      cases popped with
      | some thread =>
          obtain ⟨second, _, last, scheduled, ends, rfl⟩ := talk_bind.mp rest
          obtain rfl := talk_question.mp scheduled
          exact Or.inl ⟨1, ran 0 thread, last, rfl, .own, ends_of_checkAt ends⟩
      | none =>
          dsimp only at rest
          split_ifs at rest with several
          · obtain ⟨stolen, _, last, looked, ends, rfl⟩ := talk_bind.mp rest
            refine Or.inl ⟨2, misses 0 1 ++ stolen, last, ?_, talk_runStolen several looked,
              ends_of_checkAt ends⟩
            rw [List.append_assoc]
            rfl
          · exact Or.inl ⟨1, misses 0 1, later, rfl, .alone, ends_of_checkAt rest⟩

/-! ## Threads that are popped are scheduled -/

/-- The thread that a call has found -/
def found : Exchange Result → Option ℕ
  | ⟨.pop _, thread⟩ => thread
  | ⟨.popWait, thread⟩ => thread
  | _ => none

/-- The thread that a call has scheduled -/
def scheduled : Exchange Result → Option ℕ
  | ⟨.schedule thread, _⟩ => some thread
  | _ => none

/-- Every thread that is found is the next one that is scheduled. -/
inductive Serves : Said → Prop where
  | nil : Serves []
  | quiet {e : Exchange Result} {said : Said} (nothing : found e = none) (idle : scheduled e = none)
      (rest : Serves said) : Serves (e :: said)
  | run {e : Exchange Result} {thread : ℕ} {said : Said} (finds : found e = some thread)
      (idle : scheduled e = none) (rest : Serves said) :
      Serves (e :: ⟨Call.schedule thread, ()⟩ :: said)

theorem Serves.append {more : Said} (first : Serves said) (second : Serves more) :
    Serves (said ++ more) := by
  induction first with
  | nil => exact second
  | quiet nothing idle _ ih => exact .quiet nothing idle ih
  | run finds idle _ ih => exact .run finds idle ih

theorem serves_misses (pool count : ℕ) : Serves (misses pool count) := by
  rw [misses]
  induction List.range' pool count with
  | nil => exact .nil
  | cons i pools ih => exact .quiet rfl rfl ih

theorem serves_ran (pool thread : ℕ) : Serves (ran pool thread) := .run rfl rfl .nil

theorem serves_checked (stop : Bool) : Serves (checked stop) := .quiet rfl rfl (.quiet rfl rfl .nil)

theorem serves_chance {chance : Said}
    (drawn : chance = [] ∨ ∃ number : ℕ, chance = [⟨Call.random, number⟩]) : Serves chance := by
  rcases drawn with rfl | ⟨number, rfl⟩
  · exact .nil
  · exact .quiet rfl rfl .nil

theorem Looks.serves {numPools pops : ℕ} {kind : Kind} (looks : Looks numPools kind pops said) :
    Serves said := by
  cases looks with
  | found scans below => exact (serves_misses _ _).append (serves_ran _ _)
  | empty scans => exact serves_misses _ _
  | own => exact serves_ran _ _
  | alone => exact serves_misses _ _
  | stolen drawn other below =>
      exact ((serves_misses _ _).append (serves_chance drawn)).append (serves_ran _ _)
  | missed drawn =>
      exact ((serves_misses _ _).append (serves_chance drawn)).append (serves_misses _ _)

theorem Ends.serves {eventFreq count : ℕ} {result : Option ℕ}
    (ends : Ends eventFreq count said result) : Serves said := by
  cases ends with
  | early few => exact .nil
  | goOn => exact serves_checked false
  | stop => exact serves_checked true

theorem serves_pass {kind : Kind} {eventFreq numPools count : ℕ} {result : Option ℕ}
    (talk : Talk (kind.pass eventFreq numPools count) said result) : Serves said := by
  rcases talk_pass talk with ⟨pops, looked, last, rfl, looks, ends⟩ | ⟨-, stop, -, rfl⟩ |
    ⟨-, -, thread, rfl⟩
  · exact looks.serves.append ends.serves
  · exact ((serves_misses _ _).append (.quiet rfl rfl .nil)).append (serves_checked stop)
  · exact (serves_misses _ _).append (.run rfl rfl .nil)

/-- The threads that are found are those that are scheduled, up to the last one, which may be
about to be. -/
def Served (said : Said) : Prop :=
  said.filterMap found = said.filterMap scheduled ∨
    ∃ before last thread, said = before ++ [last] ∧ found last = some thread ∧
      before.filterMap found = before.filterMap scheduled ∧ scheduled last = none

theorem Serves.served {whole : Said} (serves : Serves whole) (begins : said <+: whole) :
    Served said := by
  induction serves generalizing said with
  | nil =>
      obtain rfl := List.prefix_nil.mp begins
      exact Or.inl rfl
  | @quiet e whole nothing idle rest ih =>
      rcases List.prefix_cons_iff.mp begins with rfl | ⟨said, rfl, inside⟩
      · exact Or.inl rfl
      · rcases ih inside with same | ⟨before, last, thread, rfl, popped, same, idle'⟩
        · left
          rw [List.filterMap_cons_none nothing, List.filterMap_cons_none idle, same]
        · right
          refine ⟨e :: before, last, thread, rfl, popped, ?_, idle'⟩
          rw [List.filterMap_cons_none nothing, List.filterMap_cons_none idle, same]
  | @run e thread whole finds idle rest ih =>
      rcases List.prefix_cons_iff.mp begins with rfl | ⟨said, rfl, inside⟩
      · exact Or.inl rfl
      · rcases List.prefix_cons_iff.mp inside with rfl | ⟨said, rfl, within⟩
        · exact Or.inr ⟨[], e, thread, rfl, finds, rfl, idle⟩
        · have next : scheduled ⟨Call.schedule thread, ()⟩ = some thread := rfl
          have quiet : found ⟨Call.schedule thread, ()⟩ = none := rfl
          rcases ih within with same | ⟨before, last, thread', rfl, popped, same, idle'⟩
          · left
            rw [List.filterMap_cons_some finds, List.filterMap_cons_none quiet,
              List.filterMap_cons_none idle, List.filterMap_cons_some next, same]
          · right
            refine ⟨e :: ⟨Call.schedule thread, ()⟩ :: before, last, thread', rfl, popped, ?_,
              idle'⟩
            rw [List.filterMap_cons_some finds, List.filterMap_cons_none quiet,
              List.filterMap_cons_none idle, List.filterMap_cons_some next, same]

/-- **A thread that has been popped is scheduled, before anything else, and no other thread is.**
This is true at any moment of a run, whatever the pools return. -/
theorem popped_scheduled {kind : Kind} {eventFreq numPools : ℕ}
    (running : Running kind eventFreq numPools said) : Served said := by
  rw [Running] at running
  split_ifs at running with nothing
  · obtain rfl := running
    exact Or.inl rfl
  · obtain ⟨whole, result, loop, begins⟩ := running
    suffices serves : Serves whole from serves.served begins
    clear begins
    induction loop with
    | start => exact .nil
    | next before talk ih => exact ih.append (serves_pass talk)

/-! ## The pools that come first are empty -/

/-- What has been exchanged just before a thread is taken from a pool -/
def Preceded (kind : Kind) (numPools pool : ℕ) (before : Said) : Prop :=
  pool < numPools ∧
    if kind = .randws then
      pool = 0 ∨ ∃ earlier chance, before = earlier ++ (misses 0 1 ++ chance) ∧
        (chance = [] ∨ ∃ number : ℕ, chance = [⟨Call.random, number⟩])
    else ∃ earlier, before = earlier ++ misses 0 pool

/-- Every thread that is taken is preceded by that. -/
def Orderly (kind : Kind) (numPools : ℕ) (said : Said) : Prop :=
  ∀ before pool (thread : ℕ) after, said = before ++ ⟨Call.pop pool, some thread⟩ :: after →
    Preceded kind numPools pool before

variable {kind : Kind} {eventFreq numPools : ℕ}

theorem Preceded.later {pool : ℕ} {before : Said} (preceded : Preceded kind numPools pool before)
    (first : Said) : Preceded kind numPools pool (first ++ before) := by
  rw [Preceded] at preceded ⊢
  refine ⟨preceded.1, ?_⟩
  have empty := preceded.2
  split_ifs at empty ⊢ with steals
  · rcases empty with own | ⟨earlier, chance, rfl, drawn⟩
    · exact Or.inl own
    · exact Or.inr ⟨first ++ earlier, chance, (List.append_assoc _ _ _).symm, drawn⟩
  · obtain ⟨earlier, rfl⟩ := empty
    exact ⟨first ++ earlier, (List.append_assoc _ _ _).symm⟩

theorem Orderly.append {more : Said} (first : Orderly kind numPools said)
    (second : Orderly kind numPools more) : Orderly kind numPools (said ++ more) := by
  intro before pool thread after same
  rcases List.append_eq_append_iff.mp same with ⟨middle, rfl, rest⟩ | ⟨middle, rfl, rest⟩
  · exact (second middle pool thread after rest).later said
  · cases middle with
    | nil =>
        have start := (second [] pool thread after rest.symm).later before
        rwa [List.append_nil] at start
    | cons e middle =>
        obtain ⟨rfl, -⟩ := List.cons.inj rest
        exact first before pool thread middle rfl

theorem Orderly.of_prefix {whole : Said} (orderly : Orderly kind numPools whole)
    (begins : said <+: whole) : Orderly kind numPools said := by
  obtain ⟨rest, rfl⟩ := begins
  intro before pool thread after same
  apply orderly before pool thread (after ++ rest)
  rw [same, List.append_assoc, List.cons_append]

/-- Nothing is taken. -/
theorem Orderly.of_notMem (none : ∀ pool (thread : ℕ), ⟨Call.pop pool, some thread⟩ ∉ said) :
    Orderly kind numPools said := by
  intro before pool thread after same
  exact absurd (same ▸ List.mem_append_right _ List.mem_cons_self) (none pool thread)

theorem notMem_misses (first count pool thread : ℕ) :
    ⟨Call.pop pool, some thread⟩ ∉ misses first count := by
  intro member
  obtain ⟨i, -, same⟩ := List.mem_map.mp member
  cases same

theorem notMem_chance {chance : Said}
    (drawn : chance = [] ∨ ∃ number : ℕ, chance = [⟨Call.random, number⟩]) (pool thread : ℕ) :
    ⟨Call.pop pool, some thread⟩ ∉ chance := by
  intro member
  rcases drawn with rfl | ⟨number, rfl⟩
  · cases member
  · cases List.mem_singleton.mp member

/-- One thread is taken. -/
theorem orderly_ran {before : Said} {pool thread : ℕ}
    (nothing : ∀ pool (thread : ℕ), ⟨Call.pop pool, some thread⟩ ∉ before)
    (preceded : Preceded kind numPools pool before) :
    Orderly kind numPools (before ++ ran pool thread) := by
  intro before' pool' thread' after same
  have last : (⟨Call.pop pool', some thread'⟩ : Exchange Result) ∉
      ([⟨Call.schedule thread, ()⟩] : Said) := by
    intro member
    cases List.mem_singleton.mp member
  obtain ⟨rfl, call, -⟩ := (List.append_cons_inj_of_notMem (nothing pool' thread') last).mp same
  obtain ⟨rfl, -⟩ := Call.pop.inj (congrArg Sigma.fst call)
  exact preceded

theorem Looks.orderly {pops : ℕ} (pools : 0 < numPools) (looks : Looks numPools kind pops said) :
    Orderly kind numPools said := by
  cases looks with
  | found scans below =>
      apply orderly_ran (notMem_misses 0 _)
      exact ⟨below, by rw [if_neg scans]; exact ⟨[], rfl⟩⟩
  | empty scans => exact .of_notMem (notMem_misses 0 _)
  | @own thread =>
      have first : Preceded .randws numPools 0 [] :=
        ⟨pools, by rw [if_pos rfl]; exact Or.inl rfl⟩
      refine orderly_ran (fun _ _ member => ?_) first
      cases member
  | alone => exact .of_notMem (notMem_misses 0 1)
  | stolen drawn other below =>
      apply orderly_ran
      · intro pool thread member
        rcases List.mem_append.mp member with miss | chance
        · exact notMem_misses 0 1 pool thread miss
        · exact notMem_chance drawn pool thread chance
      · exact ⟨below, by rw [if_pos rfl]; exact Or.inr ⟨[], _, rfl, drawn⟩⟩
  | missed drawn =>
      apply Orderly.of_notMem
      intro pool thread member
      rcases List.mem_append.mp member with first | miss
      · rcases List.mem_append.mp first with miss | chance
        · exact notMem_misses 0 1 pool thread miss
        · exact notMem_chance drawn pool thread chance
      · exact notMem_misses _ 1 pool thread miss

theorem orderly_checked (stop : Bool) : Orderly kind numPools (checked stop) := by
  apply Orderly.of_notMem
  intro pool thread member
  rcases List.mem_cons.mp member with check | answer
  · cases check
  · cases List.mem_singleton.mp answer

theorem Ends.orderly {count : ℕ} {result : Option ℕ} (ends : Ends eventFreq count said result) :
    Orderly kind numPools said := by
  cases ends with
  | early few =>
      apply Orderly.of_notMem
      intro pool thread member
      cases member
  | goOn => exact orderly_checked false
  | stop => exact orderly_checked true

theorem orderly_pass {count : ℕ} {result : Option ℕ} (pools : 0 < numPools)
    (talk : Talk (kind.pass eventFreq numPools count) said result) :
    Orderly kind numPools said := by
  have looked : Orderly kind numPools (misses 0 numPools) := .of_notMem (notMem_misses 0 _)
  rcases talk_pass talk with ⟨pops, looked, last, rfl, looks, ends⟩ | ⟨-, stop, -, rfl⟩ |
    ⟨-, -, thread, rfl⟩
  · exact (looks.orderly pools).append ends.orderly
  · refine (looked.append (.of_notMem ?_)).append (orderly_checked stop)
    intro pool thread member
    cases List.mem_singleton.mp member
  · refine looked.append (.of_notMem ?_)
    intro pool thread' member
    rcases List.mem_cons.mp member with wait | ran
    · cases wait
    · cases List.mem_singleton.mp ran

/-- **A thread is taken from a pool only when the pools before it have just been found empty.**
With `prio`, these are the pools of higher priority.  `randws` steals only when it has just found
its own pool empty, and only from a pool it has. -/
theorem earlier_pools_empty (running : Running kind eventFreq numPools said) {before after : Said}
    {pool thread : ℕ} (taken : said = before ++ ⟨Call.pop pool, some thread⟩ :: after) :
    Preceded kind numPools pool before := by
  suffices orderly : Orderly kind numPools said from orderly before pool thread after taken
  rw [Running] at running
  split_ifs at running with nothing
  · apply Orderly.of_notMem
    intro pool thread member
    rw [running] at member
    cases member
  · obtain ⟨whole, result, loop, begins⟩ := running
    suffices orderly : Orderly kind numPools whole from orderly.of_prefix begins
    clear begins taken
    induction loop with
    | start =>
        apply Orderly.of_notMem
        intro pool thread member
        cases member
    | next before talk ih => exact ih.append (orderly_pass (Nat.pos_of_ne_zero nothing) talk)

/-! ## How often a scheduler checks -/

def isPop (e : Exchange Result) : Bool :=
  match e.1 with
  | .pop _ | .popWait => true
  | .schedule _ | .checkEvents | .hasToStop | .random => false

/-- The pops since the last check, after one more call -/
def countPop (pops : ℕ) (e : Exchange Result) : ℕ :=
  match e.1 with
  | .checkEvents => 0
  | .pop _ | .popWait => pops + 1
  | .schedule _ | .hasToStop | .random => pops

/-- The pops since the last check -/
def popsSince (said : Said) : ℕ := said.foldl countPop 0

/-- How many pops one count stands for -/
def Kind.perCount (numPools : ℕ) : Kind → ℕ
  | .basic => 1
  | .basicWait | .prio => numPools
  | .randws => 2

/-- How many pops there may be in one pass -/
def Kind.perPass (numPools : ℕ) : Kind → ℕ
  | .basic | .prio => numPools
  | .basicWait => numPools + 1
  | .randws => 2

theorem foldl_countPop_le (pops : ℕ) (said : Said) :
    said.foldl countPop pops ≤ pops + said.countP isPop := by
  induction said generalizing pops with
  | nil => exact le_rfl
  | cons e said ih =>
      have one : countPop pops e ≤ pops + if isPop e then 1 else 0 := by
        obtain ⟨call, result⟩ := e
        cases call with
        | pop pool => exact le_rfl
        | popWait => exact le_rfl
        | schedule thread => exact le_rfl
        | checkEvents => exact Nat.zero_le _
        | hasToStop => exact le_rfl
        | random => exact le_rfl
      rw [List.foldl_cons, List.countP_cons]
      exact (ih _).trans (by omega)

theorem popsSince_append_le (said more : Said) :
    popsSince (said ++ more) ≤ popsSince said + more.countP isPop := by
  rw [popsSince, List.foldl_append]
  exact foldl_countPop_le _ more

theorem popsSince_checked (said : Said) (stop : Bool) : popsSince (said ++ checked stop) = 0 := by
  rw [popsSince, List.foldl_append]
  rfl

theorem countP_misses (first count : ℕ) : (misses first count).countP isPop = count := by
  have all : ∀ e ∈ misses first count, isPop e := by
    intro e member
    obtain ⟨i, -, rfl⟩ := List.mem_map.mp member
    rfl
  rw [List.countP_eq_length.mpr all, misses, List.length_map, List.length_range']

theorem countP_chance {chance : Said}
    (drawn : chance = [] ∨ ∃ number : ℕ, chance = [⟨Call.random, number⟩]) :
    chance.countP isPop = 0 := by
  rcases drawn with rfl | ⟨number, rfl⟩
  · rfl
  · rfl

theorem Looks.countP {pops : ℕ} (looks : Looks numPools kind pops said) :
    said.countP isPop = pops := by
  cases looks with
  | found scans below =>
      rw [List.countP_append, countP_misses]
      rfl
  | empty scans => exact countP_misses 0 _
  | own => rfl
  | alone => rfl
  | stolen drawn other below =>
      rw [List.countP_append, List.countP_append, countP_misses, countP_chance drawn]
      rfl
  | missed drawn =>
      rw [List.countP_append, List.countP_append, countP_misses, countP_misses, countP_chance drawn]

theorem Ends.countP {count : ℕ} {result : Option ℕ} (ends : Ends eventFreq count said result) :
    said.countP isPop = 0 := by
  cases ends with
  | early few => rfl
  | goOn => rfl
  | stop => rfl

theorem Looks.pops_le {pops : ℕ} (looks : Looks numPools kind pops said) :
    pops ≤ kind.perPass numPools := by
  cases looks with
  | @found _ before thread scans below =>
      cases kind with
      | basic => exact below
      | basicWait => exact Nat.succ_le_succ below.le
      | prio => exact below
      | randws => exact absurd rfl scans
  | empty scans =>
      rcases scans with rfl | rfl
      · exact le_rfl
      · exact le_rfl
  | own => exact Nat.le_succ 1
  | alone => exact Nat.le_succ 1
  | stolen drawn other below => exact le_rfl
  | missed drawn => exact le_rfl

/-- **No pass has more pops than that.** -/
theorem countP_pass_le {count : ℕ} {result : Option ℕ}
    (talk : Talk (kind.pass eventFreq numPools count) said result) :
    said.countP isPop ≤ kind.perPass numPools := by
  rcases talk_pass talk with ⟨pops, looked, last, rfl, looks, ends⟩ | ⟨rfl, stop, -, rfl⟩ |
    ⟨rfl, -, thread, rfl⟩
  · rw [List.countP_append, looks.countP, ends.countP]
    exact looks.pops_le
  · rw [List.countP_append, List.countP_append, countP_misses]
    exact le_rfl
  · rw [List.countP_append, countP_misses]
    exact le_rfl

/-- Between two passes the count is not due, and covers the pops since the last check. -/
structure Counted (kind : Kind) (eventFreq numPools count : ℕ) (said : Said) : Prop where
  notDue : count < max eventFreq 1
  covers : popsSince said ≤ kind.perCount numPools * count

theorem Counted.reset (said : Said) (stop : Bool) :
    Counted kind eventFreq numPools 0 (said ++ checked stop) where
  notDue := Nat.lt_of_lt_of_le Nat.one_pos (Nat.le_max_right _ _)
  covers := by
    rw [popsSince_checked]
    exact Nat.zero_le _

/-- The counter does not wrap, and covers the pops of the pass. -/
theorem Looks.covered {pops count : ℕ} (looks : Looks numPools kind pops said)
    (pools : 0 < numPools) (bits : eventFreq + numPools < 2 ^ 32)
    (notDue : count < max eventFreq 1) :
    kind.perCount numPools * count + pops ≤ kind.perCount numPools * kind.advance count pops := by
  have most := looks.pops_le
  have once : wrap (count + 1) = count + 1 := Nat.mod_eq_of_lt (by omega)
  cases kind with
  | basic =>
      have few : pops ≤ numPools := most
      have all : wrap (count + pops) = count + pops := Nat.mod_eq_of_lt (by omega)
      rw [Kind.advance, all, Kind.perCount, Nat.mul_add, Nat.one_mul pops]
  | basicWait =>
      have few : pops ≤ numPools := by
        cases looks with
        | found scans below => exact below
        | empty scans => exact scans.elim (fun same => nomatch same) fun same => nomatch same
      rw [Kind.advance, once, Kind.perCount, Nat.mul_add, Nat.mul_one]
      exact Nat.add_le_add_left few _
  | prio =>
      rw [Kind.advance, once, Kind.perCount, Nat.mul_add, Nat.mul_one]
      exact Nat.add_le_add_left most _
  | randws =>
      rw [Kind.advance, once, Kind.perCount, Nat.mul_add, Nat.mul_one]
      exact Nat.add_le_add_left most _

theorem Counted.pass {count next : ℕ} {more : Said} (pools : 0 < numPools)
    (bits : eventFreq + numPools < 2 ^ 32) (counted : Counted kind eventFreq numPools count said)
    (talk : Talk (kind.pass eventFreq numPools count) more (some next)) :
    Counted kind eventFreq numPools next (said ++ more) := by
  rcases talk_pass talk with ⟨pops, looked, last, rfl, looks, ends⟩ | ⟨-, stop, again, rfl⟩ |
    ⟨-, left, -⟩
  · cases ends with
    | early few =>
        refine ⟨Nat.lt_of_lt_of_le few (Nat.le_max_left _ _), ?_⟩
        rw [List.append_nil]
        have added := popsSince_append_le said looked
        rw [looks.countP] at added
        exact (added.trans (Nat.add_le_add_right counted.covers pops)).trans
          (looks.covered pools bits counted.notDue)
    | goOn =>
        rw [← List.append_assoc]
        exact .reset _ false
  · cases stop with
    | false =>
        obtain rfl := Option.some.inj again
        rw [← List.append_assoc]
        exact .reset _ false
    | true => cases again
  · cases left

/-- **Between two checks there is a limited number of pops**, so that a request to stop is seen. -/
theorem events_checked (bits : eventFreq + numPools < 2 ^ 32)
    (running : Running kind eventFreq numPools said) :
    popsSince said ≤
      kind.perCount numPools * (max eventFreq 1 - 1) + kind.perPass numPools := by
  rw [Running] at running
  split_ifs at running with nothing
  · rw [running]
    exact Nat.zero_le _
  · have pools := Nat.pos_of_ne_zero nothing
    refine running.holds (Counted kind eventFreq numPools) (fun said => popsSince said ≤
      kind.perCount numPools * (max eventFreq 1 - 1) + kind.perPass numPools) ?_ ?_ ?_ ?_
    · exact ⟨Nat.lt_of_lt_of_le Nat.one_pos (Nat.le_max_right _ _), Nat.zero_le _⟩
    · intro count said more next counted talk
      exact counted.pass pools bits talk
    · exact Nat.zero_le _
    · intro count said more result part counted talk begins
      have few : part.countP isPop ≤ kind.perPass numPools :=
        begins.sublist.countP_le.trans (countP_pass_le talk)
      have least : count ≤ max eventFreq 1 - 1 := Nat.le_sub_one_of_lt counted.notDue
      calc popsSince (said ++ part) ≤ popsSince said + part.countP isPop :=
            popsSince_append_le said part
        _ ≤ kind.perCount numPools * (max eventFreq 1 - 1) + kind.perPass numPools :=
            Nat.add_le_add (counted.covers.trans (Nat.mul_le_mul_left _ least)) few

/-! ## How a scheduler returns -/

/-- **A scheduler with pools returns when it has just been told to stop**, or, if it is
`basic_wait`, after a thread that it has waited for. -/
theorem returns_after (pools : 0 < numPools) (returned : Returned kind eventFreq numPools said) :
    (∃ before, said = before ++ checked true) ∨
      (kind = .basicWait ∧ ∃ before thread,
        said = before ++ (misses 0 numPools ++ waited thread)) := by
  rw [Returned, if_neg pools.ne'] at returned
  cases returned with
  | @next count said more _ before talk =>
      rcases talk_pass talk with ⟨pops, looked, last, rfl, looks, ends⟩ | ⟨-, stop, left, rfl⟩ |
        ⟨rfl, -, thread, rfl⟩
      · cases ends with
        | stop => exact Or.inl ⟨said ++ looked, (List.append_assoc _ _ _).symm⟩
      · cases stop with
        | false => cases left
        | true => exact Or.inl ⟨_, (List.append_assoc said _ _).symm⟩
      · exact Or.inr ⟨rfl, said, thread, rfl⟩

/-! ## A short run -/

/-- `prio` finds thread 7 in the second of two pools, and is told to stop. -/
def shortRun : Said := misses 0 1 ++ ran 1 7 ++ checked true

theorem returned_shortRun : Returned .prio 1 2 shortRun := by
  have pass : Talk (Kind.prio.pass 1 2 0) shortRun none := by
    refine Talk.ask (A := Result) (q := Call.pop 0) none ?_
    refine Talk.ask (A := Result) (q := Call.pop 1) (some 7) ?_
    refine Talk.ask (A := Result) (q := Call.schedule 7) () ?_
    refine Talk.ask (A := Result) (q := Call.checkEvents) () ?_
    exact Talk.ask (A := Result) (q := Call.hasToStop) true (.done none)
  have whole : Loop (Kind.prio.pass 1 2) 0 ([] ++ shortRun) none := .next .start pass
  rw [Returned, if_neg (by decide)]
  exact whole

theorem running_shortRun : Running .prio 1 2 shortRun := by
  have returned := returned_shortRun
  rw [Returned, if_neg (by decide)] at returned
  rw [Running, if_neg (by decide)]
  exact ⟨shortRun, none, returned, List.prefix_refl _⟩

theorem popped_scheduled_shortRun : Served shortRun := popped_scheduled running_shortRun

theorem earlier_pools_empty_shortRun : Preceded .prio 2 1 (misses 0 1) :=
  earlier_pools_empty running_shortRun
    (show shortRun = misses 0 1 ++ ⟨Call.pop 1, some 7⟩ :: ⟨Call.schedule 7, ()⟩ :: checked true
      from rfl)

theorem events_checked_shortRun : popsSince shortRun ≤ 2 * 0 + 2 :=
  events_checked (by decide) running_shortRun

theorem returns_after_shortRun :
    (∃ before, shortRun = before ++ checked true) ∨
      (Kind.prio = .basicWait ∧ ∃ before thread,
        shortRun = before ++ (misses 0 2 ++ waited thread)) :=
  returns_after (by decide) returned_shortRun

end ArgobotsReduction.Scheduling.BuiltinScheds
