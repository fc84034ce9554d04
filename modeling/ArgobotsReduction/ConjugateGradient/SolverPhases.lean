import ArgobotsReduction.ConjugateGradient.Solver
import ArgobotsReduction.Parallel.ForkJoinRuns

/-!
# The phases of `conj_grad`

`conj_grad` is a code of phases (`conjGrad_eq_phases`), and they settle: the ULTs
of the first loop are not joined, but each is in the pool of a ULT created after it
that is (`initPhase_settles`).

In every phase but the first, what a ULT writes is owned by it, by its number or as
an index of its slice, and what it reads is its own or written by nobody
(`Action.Private`).  In the first phase the slices of the two loops differ, and a ULT
of the second may read an element of `r` that a ULT of the first stores
(`initPhase_ordered`).
-/

set_option autoImplicit false

namespace ArgobotsReduction.ConjugateGradient.Solver

open Containers Parallel Parallel.ForkJoin Reduction

universe u

variable {K : Type} (s : System K) {Pool : Type u} (context : ReductionContext Pool)

/-! ## Slices -/

theorem slice_eq_part (total : ℕ) {thread : ℕ} (within : thread < context.numThreads) :
    slice context total thread = (slices context total).part thread := by
  have fits : thread * (total / context.numThreads) ≤ total :=
    (Nat.mul_le_mul_right _ within.le).trans (Nat.mul_div_le total context.numThreads)
  rcases eq_or_ne thread (context.numThreads - 1) with last | inner
  · have past : ¬ thread + 1 < context.numThreads := by omega
    simp only [slice, span, Tiling.part, slices, Tiling.lastTakesRest, if_pos within, if_pos last,
      if_neg past]
  · have next : thread + 1 < context.numThreads := by omega
    simp only [slice, span, Tiling.part, slices, Tiling.lastTakesRest, if_pos within,
      if_neg inner, if_pos next, Nat.add_mul, Nat.one_mul]

theorem disjoint_slice (total : ℕ) {t u : ℕ} (different : t ≠ u)
    (withinT : t < context.numThreads) (withinU : u < context.numThreads) :
    List.Disjoint (slice context total t) (slice context total u) := by
  rw [slice_eq_part context total withinT, slice_eq_part context total withinU]
  intro j first second
  exact different ((slices context total).part_inj first second)

/-! ## Owners -/

/-- A location of a ULT: one with its number, or an index of its slice. -/
def Location.OwnedBy (mine : List ℕ) (thread : ℕ) : Location → Prop
  | .q j | .z j | .r j | .p j => j ∈ mine
  | .suml t | .rhoLocal t | .dLocal t | .sumLocal t | .alphaLocal t | .betaLocal t
  | .rhoValue t | .dValue t | .sumValue t | .argsAlpha t | .argsBeta t => t = thread
  | .rho | .rho0 | .d | .sum | .alpha | .beta | .rnorm => False

theorem Location.OwnedBy.apart {mine theirs : List ℕ} {t u : ℕ} (different : t ≠ u)
    (disjoint : List.Disjoint mine theirs) (location : Location)
    (first : location.OwnedBy mine t) : ¬ location.OwnedBy theirs u := by
  intro second
  cases location with
  | q j | z j | r j | p j => exact disjoint first second
  | suml t | rhoLocal t | dLocal t | sumLocal t | alphaLocal t | betaLocal t | rhoValue t
  | dValue t | sumValue t | argsAlpha t | argsBeta t => exact different (first.symm.trans second)
  | rho | rho0 | d | sum | alpha | beta | rnorm => exact first

/-- The action writes what its ULT owns, and reads that and what nobody writes. -/
abbrev Action.Private (shared : Set Location) (mine : List ℕ) (thread : ℕ) (action : Action) :
    Prop :=
  Footprint.Confined (·.OwnedBy mine thread) shared action.target (action.reads s)

/-! ## The actions of the ULTs -/

section Private

variable {s context} {thread : ℕ} {action : Action}

theorem conjGradInitThread_private (member : action ∈ conjGradInitThread s context thread) :
    action.Private s ∅ (slice context (s.naa + 1) thread) thread := by
  simp only [conjGradInitThread, List.mem_flatMap, List.mem_cons, List.not_mem_nil, or_false]
    at member
  obtain ⟨j, inside, rfl | rfl | rfl | rfl⟩ := member <;>
    exact ⟨inside, Set.notMem_empty _,
      by simp [Action.reads, Location.OwnedBy, inside]⟩

theorem conjGradRhoThread_private (member : action ∈ conjGradRhoThread s context thread) :
    action.Private s ∅ (slice context s.ncols thread) thread := by
  simp only [conjGradRhoThread, List.mem_append, List.mem_flatMap, List.mem_singleton] at member
  obtain (rfl | ⟨j, inside, rfl⟩) | rfl := member
  · exact ⟨rfl, Set.notMem_empty _, by simp [Action.reads]⟩
  · exact ⟨rfl, Set.notMem_empty _, by simp [Action.reads, Location.OwnedBy, inside]⟩
  · exact ⟨rfl, Set.notMem_empty _, by simp [Action.reads, Location.OwnedBy]⟩

/-- The loop over the rows reads the whole of `p`, which it does not write. -/
theorem conjGradQThread_private (member : action ∈ conjGradQThread s context thread) :
    action.Private s (Set.range Location.p) (slice context s.nrows thread) thread := by
  simp only [conjGradQThread, List.mem_flatMap, List.mem_append, List.mem_map,
    List.mem_singleton] at member
  obtain ⟨j, inside, (rfl | ⟨k, -, rfl⟩) | rfl⟩ := member
  · exact ⟨rfl, by simp [Action.target], by simp [Action.reads]⟩
  · exact ⟨rfl, by simp [Action.target], by simp [Action.reads, Location.OwnedBy]⟩
  · exact ⟨inside, by simp [Action.target], by simp [Action.reads, Location.OwnedBy]⟩

theorem conjGradDThread_private (member : action ∈ conjGradDThread s context thread) :
    action.Private s ∅ (slice context s.ncols thread) thread := by
  simp only [conjGradDThread, List.mem_append, List.mem_flatMap, List.mem_singleton] at member
  obtain (rfl | ⟨j, inside, rfl⟩) | rfl := member
  · exact ⟨rfl, Set.notMem_empty _, by simp [Action.reads]⟩
  · exact ⟨rfl, Set.notMem_empty _, by simp [Action.reads, Location.OwnedBy, inside]⟩
  · exact ⟨rfl, Set.notMem_empty _, by simp [Action.reads, Location.OwnedBy]⟩

theorem conjGradUpdateThread_private
    (member : action ∈ [.passAlpha thread] ++ conjGradUpdateThread s context thread) :
    action.Private s {.alpha} (slice context s.ncols thread) thread := by
  simp only [conjGradUpdateThread, List.mem_append, List.mem_flatMap, List.mem_cons,
    List.not_mem_nil, or_false] at member
  obtain rfl | ((rfl | rfl) | ⟨j, inside, rfl | rfl | rfl⟩) | rfl := member
  · exact ⟨rfl, by simp [Action.target], by simp [Action.reads]⟩
  · exact ⟨rfl, by simp [Action.target], by simp [Action.reads]⟩
  · exact ⟨rfl, by simp [Action.target], by simp [Action.reads, Location.OwnedBy]⟩
  · exact ⟨inside, by simp [Action.target], by simp [Action.reads, Location.OwnedBy, inside]⟩
  · exact ⟨inside, by simp [Action.target], by simp [Action.reads, Location.OwnedBy, inside]⟩
  · exact ⟨rfl, by simp [Action.target], by simp [Action.reads, Location.OwnedBy, inside]⟩
  · exact ⟨rfl, by simp [Action.target], by simp [Action.reads, Location.OwnedBy]⟩

theorem conjGradPThread_private
    (member : action ∈ [.passBeta thread] ++ conjGradPThread s context thread) :
    action.Private s {.beta} (slice context s.ncols thread) thread := by
  simp only [conjGradPThread, List.mem_append, List.mem_flatMap, List.mem_singleton] at member
  obtain rfl | rfl | ⟨j, inside, rfl⟩ := member
  · exact ⟨rfl, by simp [Action.target], by simp [Action.reads]⟩
  · exact ⟨rfl, by simp [Action.target], by simp [Action.reads, Location.OwnedBy]⟩
  · exact ⟨inside, by simp [Action.target], by simp [Action.reads, Location.OwnedBy, inside]⟩

theorem conjGradFinalThread_private (member : action ∈ conjGradFinalThread s context thread) :
    action.Private s ∅ (slice context s.ncols thread) thread := by
  simp only [conjGradFinalThread, List.mem_append, List.mem_flatMap, List.mem_cons,
    List.not_mem_nil, or_false] at member
  obtain (rfl | ⟨j, inside, rfl | rfl⟩) | rfl := member
  · exact ⟨rfl, Set.notMem_empty _, by simp [Action.reads]⟩
  · exact ⟨rfl, Set.notMem_empty _, by simp [Action.reads, Location.OwnedBy, inside]⟩
  · exact ⟨rfl, Set.notMem_empty _, by simp [Action.reads, Location.OwnedBy]⟩
  · exact ⟨rfl, Set.notMem_empty _, by simp [Action.reads, Location.OwnedBy]⟩

end Private

/-! ## Footprints -/

section Footprints

variable [Field K]

/-- An action writes its target and depends on what it reads, in every memory. -/
def footprint : Footprint (exec s context : Action → Memory K → Memory K) fun _ => True where
  reads := Action.reads s
  writes action := {action.target}
  frame := by
    intro action memory _ location outside
    exact Function.update_of_ne outside _ _
  determined := by
    intro action first second _ _ agree location inside
    obtain rfl : location = action.target := inside
    rw [exec, exec, Function.update_self, Function.update_self]
    cases action <;> simp_all [Action.value, Action.reads]

end Footprints

/-! ## The phases -/

/-- The phase that creates the ULTs of the first two loops and joins those of the
second. -/
def initPhase : Phase Pool ℕ Action where
  opening := createThreads context (fun _ => []) (conjGradInitThread s context) ++
    createThreads context (fun _ => []) (conjGradRhoThread s context)
  joins := List.range context.numThreads

/-- A phase that acts, and creates and joins the ULTs of one loop. -/
def loopPhase (acts : List Action) (arguments threadFunc : ℕ → List Action) :
    Phase Pool ℕ Action where
  opening := acts.map .act ++ createThreads context arguments threadFunc
  joins := List.range context.numThreads

/-- A phase without ULTs. -/
def actPhase (acts : List Action) : Phase Pool ℕ Action := ⟨acts.map .act, []⟩

/-- The phases of one turn of the iteration loop. -/
def cgPhases : List (Phase Pool ℕ Action) :=
  [loopPhase context [.saveRho, .clearD, .clearRho] (fun _ => []) (conjGradQThread s context),
    loopPhase context [] (fun _ => []) (conjGradDThread s context),
    loopPhase context [.reduceD, .divideAlpha] (fun thread => [.passAlpha thread])
      (conjGradUpdateThread s context),
    loopPhase context [.reduceRho, .divideBeta] (fun thread => [.passBeta thread])
      (conjGradPThread s context)]

def phases : List (Phase Pool ℕ Action) :=
  [initPhase s context, actPhase [.clearRho, .reduceRho]] ++
    ((span 1 (cgitmax + 1)).flatMap fun _ => cgPhases s context) ++
    [loopPhase context [] (fun _ => []) (conjGradFinalThread s context),
      actPhase [.clearSum, .reduceSum, .storeRnorm]]

theorem cgTurn_eq_phases : cgTurn s context = (cgPhases s context).flatMap Phase.code := by
  simp [cgTurn, cgPhases, Phase.code, loopPhase, joinThreads]

theorem conjGrad_eq_phases : conjGrad s context = (phases s context).flatMap Phase.code := by
  simp [conjGrad, initCode, loopCode, phases, Phase.code, initPhase, loopPhase, actPhase,
    joinThreads, cgTurn_eq_phases, List.flatMap_assoc]

/-! ## The phases settle -/

section Settle

variable {context}

theorem forks_createThreads (arguments threadFunc : ℕ → List Action) :
    forks (createThreads context arguments threadFunc) =
      (List.range context.numThreads).map fun thread =>
        ⟨context.pools ⟨thread % context.numPools, context.mod_numPools_lt thread⟩, thread,
          threadFunc thread⟩ := by
  have each : ∀ thread, forks ((arguments thread).map .act ++
      [createThread context threadFunc thread]) =
        [⟨context.pools ⟨thread % context.numPools, context.mod_numPools_lt thread⟩, thread,
          threadFunc thread⟩] := by
    intro thread
    rw [forks_append, forks_acts, List.nil_append]
    rfl
  rw [createThreads, forks, List.filterMap_flatMap, ← List.flatMap_singleton' (List.map _ _),
    List.flatMap_map]
  exact List.flatMap_congr fun thread _ => each thread

theorem join_notMem_createThreads (arguments threadFunc : ℕ → List Action) (slot : ℕ) :
    .join slot ∉ createThreads context arguments threadFunc := by
  simp [createThreads, createThread]

theorem initPhase_settles : (initPhase s context).Settles := by
  refine Phase.settles_of_slots (n := context.numThreads) ?_
    (by rw [initPhase, forks_append, forks_createThreads, forks_createThreads])
    (fun _ => rfl) rfl ?_
  · intro slot member
    rcases List.mem_append.mp member with first | second
    · exact join_notMem_createThreads _ _ slot first
    · exact join_notMem_createThreads _ _ slot second
  · intro f member
    obtain ⟨thread, within, rfl⟩ := List.mem_map.mp member
    exact ⟨thread, List.mem_range.mp within, rfl⟩

theorem loopPhase_settles (acts : List Action) (arguments threadFunc : ℕ → List Action) :
    (loopPhase context acts arguments threadFunc).Settles := by
  refine Phase.settles_of_slots (n := context.numThreads) ?_
    (by rw [loopPhase, forks_append, forks_acts, forks_createThreads])
    (fun _ => rfl) rfl fun f member => absurd member List.not_mem_nil
  intro slot member
  rcases List.mem_append.mp member with act | created
  · simp at act
  · exact join_notMem_createThreads _ _ slot created

theorem actPhase_settles (acts : List Action) : (actPhase acts : Phase Pool ℕ Action).Settles := by
  refine ⟨by simp [actPhase], List.nodup_nil, fun slot member => absurd member List.not_mem_nil,
    fun k f there => ?_⟩
  simp [actPhase] at there

end Settle

/-! ## The phases are ordered -/

section Order

variable [Field K] {s context}

/-- The creation of the ULTs of a loop whose actions are private. -/
theorem createThreads_ordered {must : Action → Action → Prop}
    {arguments threadFunc : ℕ → List Action}
    {shared : Set Location} {total : ℕ}
    (isPrivate : ∀ thread, ∀ action ∈ arguments thread ++ threadFunc thread,
      action.Private s shared (slice context total thread) thread) :
    (createThreads context arguments threadFunc).Pairwise
      (Instr.Ordered (exec s context) must) := by
  refine List.pairwise_flatMap.mpr ⟨fun thread _ => ?_, ?_⟩
  · exact List.pairwise_append.mpr ⟨List.pairwise_of_forall_mem_list
      fun _ member second _ => Instr.ordered_of_mem_acts member second,
      List.pairwise_singleton _ _,
      fun _ member second _ => Instr.ordered_of_mem_acts member second⟩
  · refine List.Pairwise.imp_of_mem ?_ List.pairwise_lt_range
    intro t u memberT memberU less first member second member' f isFork earlier mine later theirs
    rw [List.mem_range] at memberT memberU
    rcases List.mem_append.mp member with act | created
    · exact Instr.ordered_of_mem_acts act second f isFork earlier mine later theirs
    · obtain rfl := List.mem_singleton.mp created
      cases isFork
      have other : later ∈ arguments u ++ threadFunc u := by
        rcases List.mem_append.mp member' with act | created
        · obtain ⟨action, inside, rfl⟩ := List.mem_map.mp act
          obtain rfl := List.mem_singleton.mp theirs
          exact List.mem_append_left _ inside
        · obtain rfl := List.mem_singleton.mp created
          exact List.mem_append_right _ theirs
      have owners := Location.OwnedBy.apart (Nat.ne_of_lt less)
        (disjoint_slice context total (Nat.ne_of_lt less) memberT memberU)
      have apart : (footprint s context).Apart earlier later :=
        Footprint.Confined.apart owners rfl rfl (isPrivate t earlier (List.mem_append_right _ mine))
          (isPrivate u later other)
      exact .inr ((footprint s context).commute_always apart.symm)

theorem loopPhase_ordered {must : Action → Action → Prop} (acts : List Action)
    {arguments threadFunc : ℕ → List Action} {shared : Set Location} {total : ℕ}
    (isPrivate : ∀ thread, ∀ action ∈ arguments thread ++ threadFunc thread,
      action.Private s shared (slice context total thread) thread) :
    (loopPhase context acts arguments threadFunc).Ordered (exec s context) must :=
  List.pairwise_append.mpr ⟨List.pairwise_of_forall_mem_list
    fun _ member second _ => Instr.ordered_of_mem_acts member second,
    createThreads_ordered isPrivate,
    fun _ member second _ => Instr.ordered_of_mem_acts member second⟩

theorem actPhase_ordered {must : Action → Action → Prop} (acts : List Action) :
    (actPhase acts : Phase Pool ℕ Action).Ordered (exec s context) must :=
  List.pairwise_of_forall_mem_list fun _ member second _ =>
    Instr.ordered_of_mem_acts member second

/-- An action of the first loop and one of the second may be exchanged, unless the
second reads the element of `r` that the first stores. -/
theorem init_rho_ordered {t u : ℕ} {earlier later : Action}
    (mine : earlier ∈ conjGradInitThread s context t)
    (theirs : later ∈ conjGradRhoThread s context u) :
    ForkJoin.Ordered (exec s context) (StoresRead s) earlier later := by
  refine or_iff_not_imp_left.mpr fun unread m => ?_
  have outside : later.target ∉ earlier.reads s ∧ later.target ≠ earlier.target ∧
      ((∃ j, earlier.target = .r j) ∨ earlier.target ∉ later.reads s) := by
    simp only [conjGradInitThread, List.mem_flatMap, List.mem_cons, List.not_mem_nil, or_false]
      at mine
    simp only [conjGradRhoThread, List.mem_append, List.mem_flatMap, List.mem_singleton] at theirs
    obtain ⟨i, -, rfl | rfl | rfl | rfl⟩ := mine <;>
      obtain (rfl | ⟨j, -, rfl⟩) | rfl := theirs <;> simp [Action.target, Action.reads]
  obtain ⟨notRead, different, stores⟩ := outside
  have notReadBack : earlier.target ∉ later.reads s := by
    rcases stores with ⟨j, isR⟩ | notRead
    · exact fun read => unread ⟨j, isR, isR ▸ read⟩
    · exact notRead
  have apart : (footprint s context).Apart later earlier :=
    .of_targets rfl rfl different notRead notReadBack
  exact (footprint s context).commute_always apart m

/-- In the first phase the reads of `r` come after the stores, and nothing else is in
conflict. -/
theorem initPhase_ordered : (initPhase s context).Ordered (exec s context) (StoresRead s) := by
  refine List.pairwise_append.mpr ⟨createThreads_ordered fun thread action member =>
    conjGradInitThread_private member, createThreads_ordered fun thread action member =>
    conjGradRhoThread_private member, ?_⟩
  intro first created second created' f isFork earlier mine later theirs
  obtain ⟨t, -, rfl⟩ : ∃ t < context.numThreads,
      first = createThread context (conjGradInitThread s context) t := by
    simpa [createThreads] using created
  obtain ⟨u, -, rfl⟩ : ∃ u < context.numThreads,
      second = createThread context (conjGradRhoThread s context) u := by
    simpa [createThreads] using created'
  cases isFork
  exact init_rho_ordered mine theirs

/-- **The code of `conj_grad` is sound** when no ULT reads an element of `r` before it
is stored. -/
theorem phases_sound : Sound (exec s context) (StoresRead s) (phases s context) where
  nonempty := List.cons_ne_nil _ _
  settles := by
    intro phase member
    simp only [phases, cgPhases, List.mem_append, List.mem_cons, List.mem_flatMap,
      List.not_mem_nil, or_false] at member
    obtain ((rfl | rfl) | ⟨-, -, rfl | rfl | rfl | rfl⟩) | rfl | rfl := member
    · exact initPhase_settles s
    · exact actPhase_settles _
    · exact loopPhase_settles _ _ _
    · exact loopPhase_settles _ _ _
    · exact loopPhase_settles _ _ _
    · exact loopPhase_settles _ _ _
    · exact loopPhase_settles _ _ _
    · exact actPhase_settles _
  ordered := by
    intro phase member
    simp only [phases, cgPhases, List.mem_append, List.mem_cons, List.mem_flatMap,
      List.not_mem_nil, or_false] at member
    obtain ((rfl | rfl) | ⟨-, -, rfl | rfl | rfl | rfl⟩) | rfl | rfl := member
    · exact initPhase_ordered
    · exact actPhase_ordered _
    · exact loopPhase_ordered _ fun thread action member => conjGradQThread_private member
    · exact loopPhase_ordered _ fun thread action member => conjGradDThread_private member
    · exact loopPhase_ordered _ fun thread action member => conjGradUpdateThread_private member
    · exact loopPhase_ordered _ fun thread action member => conjGradPThread_private member
    · exact loopPhase_ordered _ fun thread action member => conjGradFinalThread_private member
    · exact actPhase_ordered _

end Order

end ArgobotsReduction.ConjugateGradient.Solver
