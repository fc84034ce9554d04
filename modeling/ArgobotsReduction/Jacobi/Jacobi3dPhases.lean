import ArgobotsReduction.Jacobi.Jacobi3d

/-!
# The phases of `jac3d`

An iteration of the parallel program is a code of two phases (`iterationCode_eq_phases`).  The
planes of the ULTs tile the inner planes of the grid (`planes_eq_part`).  A ULT writes only
what belongs to it, by its number or by a plane, and reads that and what no ULT of its phase
writes: those that update `B` read the planes of `A` next to theirs.  So the ULTs of a phase
may be interleaved at will (`phases_sound`).
-/

set_option autoImplicit false

namespace ArgobotsReduction.Jacobi

open Containers Parallel Parallel.ForkJoin Reduction

universe u

variable {V : Type} (p : Jacobi3d V) {Pool : Type u} (context : ReductionContext Pool)

/-! ## Planes -/

/-- The planes of a ULT are its part of the inner planes. -/
theorem planes_eq_part {thread : ℕ} (within : thread < context.numThreads) :
    planes p context thread = ((slices context (p.l - 2)).part thread).map (1 + ·) := by
  have fits : thread * ((p.l - 2) / context.numThreads) ≤ p.l - 2 :=
    (Nat.mul_le_mul_right _ within.le).trans (Nat.mul_div_le (p.l - 2) context.numThreads)
  rw [Tiling.part, List.map_add_range', planes, span]
  rcases eq_or_ne thread (context.numThreads - 1) with last | inside
  · have past : ¬ thread + 1 < context.numThreads := by omega
    simp only [slices, Tiling.lastTakesRest, if_pos within, if_neg past, if_pos last]
    congr 1
    omega
  · have next : thread + 1 < context.numThreads := by omega
    simp only [slices, Tiling.lastTakesRest, if_pos within, if_pos next, if_neg inside,
      Nat.add_mul, Nat.one_mul]
    congr 1
    omega

theorem inner_eq_map : inner p = (List.range (p.l - 2)).map (1 + ·) := by
  rw [List.range_eq_range', List.map_add_range', inner, span]
  congr 1

theorem disjoint_planes {t u : ℕ} (different : t ≠ u) (withinT : t < context.numThreads)
    (withinU : u < context.numThreads) :
    List.Disjoint (planes p context t) (planes p context u) := by
  rw [planes_eq_part p context withinT, planes_eq_part p context withinU]
  intro i first second
  obtain ⟨j, inFirst, rfl⟩ := List.mem_map.mp first
  obtain ⟨k, inSecond, same⟩ := List.mem_map.mp second
  obtain rfl : k = j := by omega
  exact different ((slices context (p.l - 2)).part_inj inFirst inSecond)

/-! ## Owners -/

/-- A location of a ULT: one with its number, or an element of its planes. -/
def Location.OwnedBy (mine : List ℕ) (thread : ℕ) : Location → Prop
  | .a (i, _, _) | .b (i, _, _) => i ∈ mine
  | .tmp t | .localEps t | .epsValue t => t = thread
  | .eps => False

theorem Location.OwnedBy.apart {mine theirs : List ℕ} {t u : ℕ} (different : t ≠ u)
    (disjoint : List.Disjoint mine theirs) (location : Location)
    (first : location.OwnedBy mine t) : ¬ location.OwnedBy theirs u := by
  intro second
  cases location with
  | a cell | b cell => exact disjoint first second
  | tmp t | localEps t | epsValue t => exact different (first.symm.trans second)
  | eps => exact first

/-- The action writes what its ULT owns, and reads that and what nobody writes. -/
abbrev Action.Private (shared : Set Location) (mine : List ℕ) (thread : ℕ) (action : Action) :
    Prop :=
  Footprint.Confined (·.OwnedBy mine thread) shared action.target action.reads

section Private

variable {p context} {thread : ℕ} {action : Action}

theorem mem_planeActions {body : Cell → List Action} {i : ℕ} :
    action ∈ planeActions p body i ↔ ∃ j ∈ inner p, ∃ k ∈ inner p, action ∈ body (i, j, k) := by
  simp only [planeActions, List.mem_flatMap]

theorem updateAThread_private (member : action ∈ updateAThread p context thread) :
    action.Private ∅ (planes p context thread) thread := by
  simp only [updateAThread, List.mem_append, List.mem_flatMap, mem_planeActions, List.mem_cons,
    List.not_mem_nil, or_false] at member
  obtain (rfl | ⟨i, mine, j, -, k, -, rfl | rfl | rfl⟩) | rfl := member
  · exact ⟨rfl, Set.notMem_empty _, by simp [Action.reads]⟩
  · exact ⟨rfl, Set.notMem_empty _, by simp [Action.reads, Location.OwnedBy, mine]⟩
  · exact ⟨rfl, Set.notMem_empty _, by simp [Action.reads, Location.OwnedBy]⟩
  · exact ⟨mine, Set.notMem_empty _, by simp [Action.reads, Location.OwnedBy, mine]⟩
  · exact ⟨rfl, Set.notMem_empty _, by simp [Action.reads, Location.OwnedBy]⟩

/-- The ULTs that update `B` read the whole of `A`, which they do not write. -/
theorem updateBThread_private (member : action ∈ updateBThread p context thread) :
    action.Private (Set.range .a) (planes p context thread) thread := by
  simp only [updateBThread, List.mem_flatMap, mem_planeActions, List.mem_singleton] at member
  obtain ⟨i, mine, j, -, k, -, rfl⟩ := member
  exact ⟨mine, by simp [Action.target], by simp [Action.reads]⟩

end Private

/-! ## Footprints -/

section Footprints

variable [LinearOrder V]

/-- An action writes its target and depends on what it reads, in every memory. -/
def footprint : Footprint (exec p context : Action → Memory V → Memory V) fun _ => True where
  reads := Action.reads
  writes action := {action.target}
  frame := by
    intro action memory _ location outside
    exact Function.update_of_ne outside _ _
  determined := by
    intro action first second _ _ agree location inside
    obtain rfl : location = action.target := inside
    rw [exec, exec, Function.update_self, Function.update_self]
    cases action <;> simp_all [Action.value, Action.reads, average]

end Footprints

/-! ## The phases -/

section Phases

variable [LinearOrder V] {Lane : Type} (lane : ℕ → Lane)

/-- A phase that acts, and creates and joins the ULTs of one loop. -/
def updatePhase (acts : List Action) (threadFunc : ℕ → List Action) :
    Phase (Pool × Lane) ℕ Action where
  opening := acts.map .act ++ createThreads context lane threadFunc
  joins := List.range context.numThreads

/-- The phases of one turn of the iteration loop. -/
def phases : List (Phase (Pool × Lane) ℕ Action) :=
  [updatePhase context lane [] (updateAThread p context),
    updatePhase context lane [.reduceMax] (updateBThread p context)]

omit [LinearOrder V] in
theorem iterationCode_eq_phases :
    iterationCode p context lane = (phases p context lane).flatMap Phase.code := by
  simp [iterationCode, phases, Phase.code, updatePhase, joinThreads]

variable {p context lane}

omit [LinearOrder V] in
theorem updatePhase_settles (acts : List Action) (threadFunc : ℕ → List Action) :
    (updatePhase context lane acts threadFunc).Settles := by
  have opens : ∀ slot, .join slot ∉ (updatePhase context lane acts threadFunc).opening := by
    intro slot member
    simp [updatePhase, createThreads] at member
  have forked : forks (updatePhase context lane acts threadFunc).opening =
      [] ++ (List.range context.numThreads).map fun thread =>
        ⟨(context.pools ⟨thread % context.numPools, context.mod_numPools_lt thread⟩, lane thread),
          thread, threadFunc thread⟩ := by
    rw [updatePhase, forks_append, forks_acts, createThreads, forks, List.filterMap_map]
    exact congrArg _ (List.filterMap_eq_map_iff_forall_eq_some.mpr fun _ _ => rfl)
  exact Phase.settles_of_slots opens forked (fun _ => rfl) rfl
    fun f member => absurd member List.not_mem_nil

theorem updatePhase_ordered (acts : List Action) {threadFunc : ℕ → List Action}
    {shared : Set Location}
    (isPrivate : ∀ thread, ∀ action ∈ threadFunc thread,
      action.Private shared (planes p context thread) thread) :
    (updatePhase context lane acts threadFunc).Ordered (exec p context) fun _ _ => False := by
  refine List.pairwise_append.mpr ⟨List.pairwise_of_forall_mem_list
    fun _ member second _ => Instr.ordered_of_mem_acts member second, ?_,
    fun _ member second _ => Instr.ordered_of_mem_acts member second⟩
  refine List.pairwise_map.mpr (List.Pairwise.imp_of_mem ?_ List.pairwise_lt_range)
  intro t u memberT memberU less f isFork earlier mine later theirs
  cases isFork
  have owners := Location.OwnedBy.apart (Nat.ne_of_lt less)
    (disjoint_planes p context (Nat.ne_of_lt less) (List.mem_range.mp memberT)
      (List.mem_range.mp memberU))
  have apart : (footprint p context).Apart earlier later :=
    Footprint.Confined.apart owners rfl rfl (isPrivate t earlier mine) (isPrivate u later theirs)
  exact .inr ((footprint p context).commute_always apart.symm)

/-- **The code of an iteration is sound**: no two ULTs of a phase are in conflict. -/
theorem phases_sound : Sound (exec p context) (fun _ _ => False) (phases p context lane) where
  nonempty := List.cons_ne_nil _ _
  settles := by
    intro phase member
    simp only [phases, List.mem_cons, List.not_mem_nil, or_false] at member
    obtain rfl | rfl := member
    · exact updatePhase_settles _ _
    · exact updatePhase_settles _ _
  ordered := by
    intro phase member
    simp only [phases, List.mem_cons, List.not_mem_nil, or_false] at member
    obtain rfl | rfl := member
    · exact updatePhase_ordered _ fun thread action member => updateAThread_private member
    · exact updatePhase_ordered _ fun thread action member => updateBThread_private member

end Phases

end ArgobotsReduction.Jacobi
