import Mathlib.Data.Nat.Log
import ArgobotsReduction.Reduction.Common

/-!
# The tree reduction

The variant of `reduce_common` with `USE_TREE_REDUCTION` set.  The ULTs store
their local results in `thread_results`, and then combine the slots along a
binary tree of thread indices, with a barrier after the stores and after every
level.

Round 0 of a ULT ends with its store, round `level + 1` is one level of the
tree, and the last round copies the result and frees the memory
(`reductionThread_actions_zero`, `reductionThread_actions_level`,
`reductionThread_actions_last`).  No two ULTs conflict within a round (`apart`),
and after the rounds the slots hold the values of the tree
(`threadResult_canonical`).  The main result is `reduceCommon_correct`.
-/

set_option autoImplicit false

namespace ArgobotsReduction.Reduction.Tree

open Parallel

universe u v

variable {α : Type u} {numThreads : ℕ}

/-! ## The code -/

/-- The body of the tree loop, without the barrier. -/
def combineStep (thread : Fin numThreads) (step : ℕ) : List (Action numThreads α) :=
  if thread % (2 * step) = 0 then
    if within : thread + step < numThreads then [.combine thread ⟨thread + step, within⟩] else []
  else []

/-- The tree loop from a value of `step` on. -/
def treeLoop (thread : Fin numThreads) (step : ℕ) (positive : 0 < step) :
    Code (Action numThreads α) :=
  if step < numThreads then
    (combineStep thread step).map .act ++
      .wait :: treeLoop thread (step * 2) (Nat.mul_pos positive Nat.two_pos)
  else []
termination_by numThreads - step

/-- What a ULT does after the loop. -/
def finish (thread : Fin numThreads) : List (Action numThreads α) :=
  (if thread.val = 0 then [.copyResult thread] else []) ++ [.freeLocal thread, .freeResult thread]

def reductionThread (args : ReductionArgs α) (thread : Fin numThreads) :
    Code (Action numThreads α) :=
  (accumulate args thread ++ [Action.storeResult thread]).map .act ++
    .wait :: (treeLoop thread 1 one_pos ++ (finish thread).map .act)

/-- The ULTs that `reduce_common` creates and joins. -/
def reduceCommon {Pool : Type v} (context : ReductionContext Pool) (array : ℕ → α)
    (numElems : ℕ) (defaultReductionValue : α) (i : Fin context.numThreads) :
    Ult Pool (Action context.numThreads α) where
  pool := context.poolOf i
  body := reductionThread (threadArgs context array numElems defaultReductionValue i) i

/-! ## The rounds of a ULT -/

/-- The number of levels of the tree. -/
def levels (numThreads : ℕ) : ℕ := Nat.clog 2 numThreads

theorem treeLoop_of_lt (thread : Fin numThreads) {level : ℕ} (more : level < levels numThreads) :
    (treeLoop thread (2 ^ level) (Nat.two_pow_pos _) : Code (Action numThreads α)) =
      (combineStep thread (2 ^ level)).map .act ++
        .wait :: treeLoop thread (2 ^ (level + 1)) (Nat.two_pow_pos _) := by
  have below : 2 ^ level < numThreads := (Nat.lt_clog_iff_pow_lt one_lt_two).mp more
  rw [treeLoop, if_pos below]
  rfl

theorem treeLoop_of_le (thread : Fin numThreads) {level : ℕ} (done : levels numThreads ≤ level) :
    (treeLoop thread (2 ^ level) (Nat.two_pow_pos _) : Code (Action numThreads α)) = [] := by
  have above : ¬ 2 ^ level < numThreads :=
    Nat.not_lt.mpr ((Nat.clog_le_iff_le_pow one_lt_two).mp done)
  rw [treeLoop, if_neg above]

theorem actions_treeLoop (thread : Fin numThreads) (rest : Code (Action numThreads α))
    {level round : ℕ} (more : level + round < levels numThreads) :
    Code.actions (treeLoop thread (2 ^ level) (Nat.two_pow_pos _) ++ rest) round =
      combineStep thread (2 ^ (level + round)) := by
  induction round generalizing level with
  | zero =>
      rw [treeLoop_of_lt thread (by omega), List.append_assoc, Code.actions_map_append_zero]
      simp
  | succ round ih =>
      rw [treeLoop_of_lt thread (by omega), List.append_assoc, Code.actions_map_append_succ,
        List.cons_append, Code.actions_wait_succ, ih (by omega), Nat.add_right_comm, Nat.add_assoc]

theorem actions_treeLoop_add (thread : Fin numThreads) (rest : Code (Action numThreads α))
    {level done : ℕ} (all : level + done = levels numThreads) (round : ℕ) :
    Code.actions (treeLoop thread (2 ^ level) (Nat.two_pow_pos _) ++ rest) (done + round) =
      rest.actions round := by
  induction done generalizing level with
  | zero => rw [treeLoop_of_le thread (by omega), List.nil_append, Nat.zero_add]
  | succ done ih =>
      rw [treeLoop_of_lt thread (by omega), List.append_assoc, Nat.add_right_comm,
        Code.actions_map_append_succ, List.cons_append, Code.actions_wait_succ, ih (by omega)]

theorem waits_treeLoop (thread : Fin numThreads) {level left : ℕ}
    (all : level + left = levels numThreads) :
    (treeLoop thread (2 ^ level) (Nat.two_pow_pos _) : Code (Action numThreads α)).waits = left := by
  induction left generalizing level with
  | zero => rw [treeLoop_of_le thread (by omega), Code.waits_nil]
  | succ left ih =>
      rw [treeLoop_of_lt thread (by omega), Code.waits_append, Code.waits_map_act,
        Code.waits_wait, ih (by omega), Nat.zero_add]

theorem disciplined_treeLoop (thread : Fin numThreads) {rest : Code (Action numThreads α)}
    (disciplined : Code.Disciplined false rest) {level left : ℕ}
    (all : level + left = levels numThreads) :
    Code.Disciplined false (treeLoop thread (2 ^ level) (Nat.two_pow_pos _) ++ rest) := by
  induction left generalizing level with
  | zero => rwa [treeLoop_of_le thread (by omega), List.nil_append]
  | succ left ih =>
      rw [treeLoop_of_lt thread (by omega), List.append_assoc]
      exact Code.disciplined_map_append _ (ih (by omega))

section Rounds

variable (args : ReductionArgs α) (thread : Fin numThreads)

theorem waits_reductionThread : (reductionThread args thread).waits = levels numThreads + 1 := by
  have loop := waits_treeLoop (α := α) thread (Nat.zero_add (levels numThreads))
  rw [reductionThread, Code.waits_append, Code.waits_map_act, Code.waits_wait, Code.waits_append,
    Code.waits_map_act, Nat.add_zero, Nat.zero_add]
  exact congrArg (· + 1) loop

theorem disciplined_reductionThread : Code.Disciplined false (reductionThread args thread) :=
  Code.disciplined_map_append _
    (disciplined_treeLoop thread (Code.disciplined_map _) (Nat.zero_add (levels numThreads)))

theorem reductionThread_actions_zero : (reductionThread args thread).actions 0 =
    accumulate args thread ++ [.storeResult thread] := by
  rw [reductionThread, Code.actions_map_append_zero, Code.actions_wait_zero, List.append_nil]

theorem reductionThread_actions_level {level : ℕ} (more : level < levels numThreads) :
    (reductionThread args thread).actions (level + 1) = combineStep thread (2 ^ level) := by
  have loop := actions_treeLoop thread ((finish thread).map Instr.act)
    (show 0 + level < levels numThreads by omega) (α := α)
  rw [reductionThread, Code.actions_map_append_succ, Code.actions_wait_succ]
  simpa only [pow_zero, Nat.zero_add] using loop

theorem reductionThread_actions_last :
    (reductionThread args thread).actions (levels numThreads + 1) = finish thread := by
  have loop := actions_treeLoop_add thread ((finish thread).map Instr.act)
    (Nat.zero_add (levels numThreads)) 0 (α := α)
  rw [reductionThread, Code.actions_map_append_succ, Code.actions_wait_succ]
  simpa only [pow_zero, Nat.add_zero, Code.actions_map_zero] using loop

end Rounds

/-! ## No conflicts within a round -/

/-- The action stays within the locations of one ULT, apart from the result of
ULT 0. -/
def Private (thread : Fin numThreads) (action : Action numThreads α) : Prop :=
  (action.target = .localResult thread ∨ action.target = .threadResult thread ∨
      action.target = .result ∧ thread.val = 0) ∧
    action.reads ⊆ {.localResult thread, .threadResult thread}

theorem private_of_store {args : ReductionArgs α} {thread : Fin numThreads}
    {action : Action numThreads α}
    (member : action ∈ accumulate args thread ++ [.storeResult thread]) :
    Private thread action := by
  rcases List.mem_append.mp member with inLoop | stored
  · obtain ⟨target, reads⟩ := mem_accumulate inLoop
    exact ⟨.inl target, reads.trans (by simp)⟩
  · obtain rfl := List.mem_singleton.mp stored
    exact ⟨.inr (.inl rfl), by simp [Action.reads]⟩

theorem private_of_finish {thread : Fin numThreads} {action : Action numThreads α}
    (member : action ∈ finish thread) : Private thread action := by
  rcases List.mem_append.mp member with copied | freed
  · obtain ⟨first, rfl⟩ : thread.val = 0 ∧ action = .copyResult thread := by
      simpa using copied
    exact ⟨.inr (.inr ⟨rfl, first⟩), by simp [Action.reads]⟩
  · rcases List.mem_pair.mp freed with rfl | rfl
    · exact ⟨.inl rfl, by simp [Action.reads]⟩
    · exact ⟨.inr (.inl rfl), by simp [Action.reads]⟩

/-- A step of the tree loop is at most one combination, by an aligned ULT. -/
theorem mem_combineStep {thread : Fin numThreads} {step : ℕ} {action : Action numThreads α}
    (member : action ∈ combineStep thread step) :
    thread % (2 * step) = 0 ∧
      ∃ partner : Fin numThreads, partner.val = thread + step ∧
        action = .combine thread partner := by
  rw [combineStep] at member
  split at member
  next aligned =>
    split at member
    next within =>
      obtain rfl := List.mem_singleton.mp member
      exact ⟨aligned, ⟨thread + step, within⟩, rfl, rfl⟩
    next => simp at member
  next => simp at member

theorem apart_of_private {reduceFunc : α → α → α} {t u : Fin numThreads} (different : t ≠ u)
    {a b : Action numThreads α} (mine : Private t a) (theirs : Private u b) :
    (footprint reduceFunc).Apart a b := by
  have outside : ∀ {t u : Fin numThreads} {a b : Action numThreads α}, t ≠ u → Private t a →
      Private u b → a.target ∉ b.reads := by
    rintro t u a b different ⟨target | target | ⟨target, -⟩, -⟩ ⟨-, reads⟩ read <;>
      simpa [target, different] using reads read
  refine apart_of_target ?_ (outside different mine theirs) (outside different.symm theirs mine)
  obtain ⟨target | target | ⟨target, first⟩, -⟩ := mine <;>
    obtain ⟨other | other | ⟨other, second⟩, -⟩ := theirs <;> simp [target, other, different]
  exact different (Fin.ext (first.trans second.symm))

/-- In one level of the tree nobody reads a slot that another ULT combines into:
the partners are the indices that are not aligned. -/
theorem apart_of_combineStep {reduceFunc : α → α → α} {t u : Fin numThreads} (different : t ≠ u)
    {step : ℕ} (positive : 0 < step) {a b : Action numThreads α} (mine : a ∈ combineStep t step)
    (theirs : b ∈ combineStep u step) : (footprint reduceFunc).Apart a b := by
  obtain ⟨alignedT, partnerT, placeT, rfl⟩ := mem_combineStep mine
  obtain ⟨alignedU, partnerU, placeU, rfl⟩ := mem_combineStep theirs
  have unaligned : ∀ {i j : ℕ}, i % (2 * step) = 0 → j % (2 * step) = 0 → i ≠ j + step := by
    rintro _ j first second rfl
    rw [Nat.add_mod, second, Nat.zero_add, Nat.mod_mod, Nat.mod_eq_of_lt (by omega)] at first
    omega
  have notPartnerU : t ≠ partnerU := fun same =>
    unaligned alignedT alignedU ((congrArg Fin.val same).trans placeU)
  have notPartnerT : u ≠ partnerT := fun same =>
    unaligned alignedU alignedT ((congrArg Fin.val same).trans placeT)
  refine apart_of_target ?_ ?_ ?_ <;>
    simp [Action.target, Action.reads, different, different.symm, notPartnerT, notPartnerU]

section Reduction

variable (args : Fin numThreads → ReductionArgs α) (reduceFunc : α → α → α)

/-- **No ULT writes in a round what another one reads or writes in it.** -/
theorem apart {t u : Fin numThreads} (different : t ≠ u) (round : ℕ) {a b : Action numThreads α}
    (mine : a ∈ (reductionThread (args t) t).actions round)
    (theirs : b ∈ (reductionThread (args u) u).actions round) :
    (footprint reduceFunc).Apart a b := by
  cases round with
  | zero =>
      rw [reductionThread_actions_zero] at mine theirs
      exact apart_of_private different (private_of_store mine) (private_of_store theirs)
  | succ level =>
      rcases lt_trichotomy level (levels numThreads) with inner | last | past
      · rw [reductionThread_actions_level _ _ inner] at mine theirs
        exact apart_of_combineStep different (by positivity) mine theirs
      · rw [last, reductionThread_actions_last] at mine theirs
        exact apart_of_private different (private_of_finish mine) (private_of_finish theirs)
      · rw [Code.actions_eq_nil (by rw [waits_reductionThread]; omega)] at mine
        simp at mine

theorem exchange (may : Policy (Fin numThreads) (Action numThreads α) (Memory numThreads α))
    (memory : Memory numThreads α) :
    Exchange (exec reduceFunc) may (List.finRange numThreads)
      (fun t => reductionThread (args t) t) memory fun _ _ => True :=
  Footprint.exchange (fun _ => footprint reduceFunc) List.mem_finRange
    (List.nodup_finRange numThreads) (fun _ => trivial) (fun _ _ _ _ _ _ => trivial)
    fun _ _ round different _ mine _ theirs => apart args reduceFunc different round mine theirs

/-! ## The values of the tree -/

/-- After a round, a location that only one ULT writes holds what that ULT left
in it. -/
theorem canonical_own (memory : Memory numThreads α) (round : ℕ) (t : Fin numThreads)
    {location : Location numThreads}
    (own : ∀ u, u ≠ t → ∀ b ∈ (reductionThread (args u) u).actions round, b.target ≠ location) :
    canonical (exec reduceFunc) (List.finRange numThreads)
        (fun t => reductionThread (args t) t) memory (round + 1) location =
      execAll (exec reduceFunc) ((reductionThread (args t) t).actions round)
        (canonical (exec reduceFunc) (List.finRange numThreads)
          (fun t => reductionThread (args t) t) memory round) location := by
  rw [canonical_succ]
  refine (footprint reduceFunc).round_own (List.nodup_finRange numThreads)
    (fun _ _ _ _ _ => trivial) (List.mem_finRange t) ?_ trivial ?_
  · intro u _ different b theirs a mine
    exact ((Set.disjoint_union_right.mp (apart args reduceFunc different round theirs mine).left)).1
  · intro u _ different b theirs written
    exact own u different b theirs (Set.mem_singleton_iff.mp written).symm

theorem threadResult_ne_target {t u : Fin numThreads} (different : u ≠ t) {round : ℕ}
    {b : Action numThreads α} (theirs : b ∈ (reductionThread (args u) u).actions round) :
    b.target ≠ .threadResult t := by
  have private_ne : Private u b → b.target ≠ .threadResult t := by
    rintro ⟨target | target | ⟨target, -⟩, -⟩ <;> simp [target, different]
  cases round with
  | zero =>
      rw [reductionThread_actions_zero] at theirs
      exact private_ne (private_of_store theirs)
  | succ level =>
      rcases lt_trichotomy level (levels numThreads) with inner | last | past
      · rw [reductionThread_actions_level _ _ inner] at theirs
        obtain ⟨-, partner, -, rfl⟩ := mem_combineStep theirs
        simpa [Action.target] using different
      · rw [last, reductionThread_actions_last] at theirs
        exact private_ne (private_of_finish theirs)
      · rw [Code.actions_eq_nil (by rw [waits_reductionThread]; omega)] at theirs
        simp at theirs

/-- After the stores and a number of levels, the slots hold the values of the
tree at that level. -/
theorem threadResult_canonical (memory : Memory numThreads α) {leaf : ℕ → α}
    (leaves : ∀ t : Fin numThreads, leaf t = localFold reduceFunc (args t)) {level : ℕ}
    (within : level ≤ levels numThreads) (t : Fin numThreads) :
    canonical (exec reduceFunc) (List.finRange numThreads)
        (fun t => reductionThread (args t) t) memory (level + 1) (.threadResult t) =
      some (combineTree reduceFunc leaf numThreads level t) := by
  induction level generalizing t with
  | zero =>
      rw [canonical_own args reduceFunc memory 0 t fun u different b theirs =>
          threadResult_ne_target args different theirs,
        reductionThread_actions_zero, execAll_append, execAll_cons, execAll_nil]
      refine (exec_target (.storeResult t) _).trans ?_
      rw [Action.value, execAll_accumulate, combineTree, leaves t]
  | succ level ih =>
      rw [canonical_own args reduceFunc memory (level + 1) t fun u different b theirs =>
          threadResult_ne_target args different theirs,
        reductionThread_actions_level _ _ (by omega), combineStep, combineTree, ← pow_succ']
      by_cases aligned : t.val % 2 ^ (level + 1) = 0
      · by_cases partner : t.val + 2 ^ level < numThreads
        · rw [if_pos aligned, dif_pos partner, if_pos ⟨aligned, partner⟩, execAll_cons,
            execAll_nil]
          refine (exec_target (.combine t ⟨t + 2 ^ level, partner⟩) _).trans ?_
          rw [Action.value, ih (by omega) t, ih (by omega) ⟨t + 2 ^ level, partner⟩]
          rfl
        · rw [if_pos aligned, dif_neg partner, if_neg fun both => partner both.2, execAll_nil,
            ih (by omega) t]
      · rw [if_neg aligned, if_neg fun both => aligned both.1, execAll_nil, ih (by omega) t]

/-- The last round puts the root of the tree into the result. -/
theorem result_canonical (memory : Memory numThreads α) (nonempty : 0 < numThreads) {leaf : ℕ → α}
    (leaves : ∀ t : Fin numThreads, leaf t = localFold reduceFunc (args t)) :
    canonical (exec reduceFunc) (List.finRange numThreads)
        (fun t => reductionThread (args t) t) memory (levels numThreads + 2) .result =
      some (combineTree reduceFunc leaf numThreads (levels numThreads) 0) := by
  have others : ∀ u : Fin numThreads, u ≠ ⟨0, nonempty⟩ →
      ∀ b ∈ (reductionThread (args u) u).actions (levels numThreads + 1),
        b.target ≠ .result := by
    intro u different b theirs
    rw [reductionThread_actions_last] at theirs
    obtain ⟨target | target | ⟨-, first⟩, -⟩ := private_of_finish theirs
    · simp [target]
    · simp [target]
    · exact absurd (Fin.ext first) different
  rw [canonical_own args reduceFunc memory _ ⟨0, nonempty⟩ others,
    reductionThread_actions_last, finish, if_pos rfl, List.singleton_append, execAll_cons,
    execAll_cons, execAll_cons, execAll_nil, exec_of_ne (by simp [Action.target]),
    exec_of_ne (by simp [Action.target])]
  exact (exec_target (.copyResult ⟨0, nonempty⟩) _).trans
    (threadResult_canonical args reduceFunc memory leaves le_rfl ⟨0, nonempty⟩)

end Reduction

/-! ## The whole reduction -/

section Correctness

variable {Pool : Type v} (context : ReductionContext Pool) (reduceFunc : α → α → α)
  (array : ℕ → α) (numElems : ℕ) (defaultReductionValue : α)

/-- The value of the tree over the local folds of the ULTs. -/
def treeValue : α :=
  combineTree reduceFunc
    (fun i => (((slices context numElems).part i).map array).foldl reduceFunc
      defaultReductionValue)
    context.numThreads (levels context.numThreads) 0

variable {context}

/-- Every schedule of the tree reduction, under every live policy, ends with the
value of the tree in the result.  Nothing is asked of the reduce function. -/
theorem reduceCommon_ensures_treeValue (memory : Memory context.numThreads α)
    {may : Policy (Fin context.numThreads) (Action context.numThreads α)
      (Memory context.numThreads α)}
    (live : Policy.Live (exec reduceFunc) may memory
      fun i => (reduceCommon context array numElems defaultReductionValue i).body) :
    Ensures (exec reduceFunc) may memory
      (fun i => (reduceCommon context array numElems defaultReductionValue i).body)
      fun final => final .result =
        some (treeValue context reduceFunc array numElems defaultReductionValue) := by
  refine ((exchange (threadArgs context array numElems defaultReductionValue) reduceFunc may
    memory).ensures (fun t => disciplined_reductionThread _ t)
    (fun t => congrArg (· + 1) (waits_reductionThread _ t)) live).imp ?_
  rintro _ rfl
  exact result_canonical _ reduceFunc memory context.numThreads_pos fun t =>
    (localFold_threadArgs array numElems defaultReductionValue reduceFunc t).symm

/-- With an associative function and its default the tree gives the fold of the
whole array. -/
theorem treeValue_eq_foldl (context : ReductionContext Pool) {reduceFunc : α → α → α}
    {defaultReductionValue : α} (law : FoldLaw reduceFunc defaultReductionValue) :
    treeValue context reduceFunc array numElems defaultReductionValue =
      ((List.range numElems).map array).foldl reduceFunc defaultReductionValue := by
  have enough : context.numThreads ≤ 2 ^ levels context.numThreads :=
    Nat.le_pow_clog one_lt_two _
  rw [treeValue, combineTree_root law (fun _ => rfl) context.numThreads_pos enough,
    ← List.map_flatMap, Tiling.flatMap_part]

/-- **Tree reduction is correct under every schedule.**  Every interleaving ends
with the left fold of the array in the result, the slices laid one after the
other are the indices of the array, and within a round no ULT writes a slot of
`thread_results` that another ULT reads or writes. -/
theorem reduceCommon_correct (context : ReductionContext Pool) (reduceFunc : α → α → α)
    (defaultReductionValue : α)
    (assoc : ∀ a b c, reduceFunc (reduceFunc a b) c = reduceFunc a (reduceFunc b c))
    (identity : ∀ a, reduceFunc defaultReductionValue a = a ∧
      reduceFunc a defaultReductionValue = a)
    (array : ℕ → α) (numElems : ℕ) (memory : Memory context.numThreads α) :
    Ensures (exec reduceFunc) .free memory
        (fun i => (reduceCommon context array numElems defaultReductionValue i).body)
        (fun final => final .result =
          some (((List.range numElems).map array).foldl reduceFunc defaultReductionValue)) ∧
      (List.finRange context.numThreads).flatMap (slice context array numElems
          defaultReductionValue) = List.range numElems ∧
      ∀ t u : Fin context.numThreads, t ≠ u → ∀ round,
        ∀ a ∈ (reduceCommon context array numElems defaultReductionValue t).body.actions round,
        ∀ b ∈ (reduceCommon context array numElems defaultReductionValue u).body.actions round,
        ∀ slot, a.target = .threadResult slot →
          .threadResult slot ∉ b.reads ∧ b.target ≠ .threadResult slot := by
  refine ⟨?_, flatMap_slice array numElems defaultReductionValue, ?_⟩
  · have law : FoldLaw reduceFunc defaultReductionValue :=
      .of_unit assoc fun a => (identity a).2
    rw [← treeValue_eq_foldl array numElems context law]
    exact reduceCommon_ensures_treeValue reduceFunc array numElems defaultReductionValue memory
      (Policy.live_free _ _ _)
  · intro t u different round a mine b theirs slot target
    have disjoint := Set.disjoint_singleton_left.mp
      (apart (threadArgs context array numElems defaultReductionValue) reduceFunc different round
        mine theirs).left
    rw [target] at disjoint
    exact ⟨fun read => disjoint (.inl read), fun written => disjoint (.inr written.symm)⟩

/-- The concatenation of five words by three ULTs in two pools. -/
theorem reduceCommon_correct_append :
    Ensures (exec (· ++ ·)) .free (fun _ => none)
      (fun i => (reduceCommon ⟨2, id, 3, by decide, by decide⟩ (fun j => [j, j]) 5 [] i).body)
      (fun final => final .result = some [0, 0, 1, 1, 2, 2, 3, 3, 4, 4]) :=
  (reduceCommon_correct ⟨2, id, 3, by decide, by decide⟩ (· ++ ·) [] List.append_assoc
    (fun a => ⟨a.nil_append, a.append_nil⟩) (fun j => [j, j]) 5 fun _ => none).1

end Correctness

end ArgobotsReduction.Reduction.Tree
