import ArgobotsReduction.ConjugateGradient.SolverPhases
import ArgobotsReduction.Parallel.SlicedLoop

/-!
# What `conj_grad` computes when its ULTs run in turn

When every ULT runs to its end where it is created, the slices of each loop are the
loop of the sequential program, and the local sums add up to its sum
(`createThreads_values`).  So the code of a turn of the iteration loop does what the
turn of the sequential program does (`Follows.cgTurn`), and the whole code leaves the
same `z` (`z_sequential`).
-/

set_option autoImplicit false

namespace ArgobotsReduction.ConjugateGradient.Solver

open Containers Parallel Parallel.ForkJoin Reduction

universe u

variable {K : Type} [Field K] {s : System K} {Pool : Type u} {context : ReductionContext Pool}

/-! ## The vectors after one assignment -/

section Vectors

omit [Field K]

variable (m : Memory K) (j : ℕ) (y : K)

@[simp] theorem vectors_update_q : vectors (Function.update m (.q j) y) =
    { vectors m with q := Function.update (vectors m).q j y } := by
  ext i <;> simp [vectors, Function.update_apply]

@[simp] theorem vectors_update_z : vectors (Function.update m (.z j) y) =
    { vectors m with z := Function.update (vectors m).z j y } := by
  ext i <;> simp [vectors, Function.update_apply]

@[simp] theorem vectors_update_r : vectors (Function.update m (.r j) y) =
    { vectors m with r := Function.update (vectors m).r j y } := by
  ext i <;> simp [vectors, Function.update_apply]

@[simp] theorem vectors_update_p : vectors (Function.update m (.p j) y) =
    { vectors m with p := Function.update (vectors m).p j y } := by
  ext i <;> simp [vectors, Function.update_apply]

@[simp] theorem vectors_q : (vectors m).q j = m (.q j) := rfl

@[simp] theorem vectors_z : (vectors m).z j = m (.z j) := rfl

@[simp] theorem vectors_r : (vectors m).r j = m (.r j) := rfl

@[simp] theorem vectors_p : (vectors m).p j = m (.p j) := rfl

/-- An assignment to a variable leaves the vectors as they are. -/
@[simp] theorem vectors_update_of_ne {location : Location}
    (different : ∀ i, location ≠ .q i ∧ location ≠ .z i ∧ location ≠ .r i ∧ location ≠ .p i) :
    vectors (Function.update m location y) = vectors m := by
  ext i <;> simp [vectors, Function.update_apply, eq_comm, different i]

end Vectors

/-! ## The variables of the main ULT -/

/-- A variable of the main ULT. -/
def Location.OfMain : Location → Prop
  | .rho | .rho0 | .d | .sum | .alpha | .beta | .rnorm => True
  | .q _ | .z _ | .r _ | .p _ | .suml _ | .rhoLocal _ | .dLocal _ | .sumLocal _ | .alphaLocal _
  | .betaLocal _ | .rhoValue _ | .dValue _ | .sumValue _ | .argsAlpha _ | .argsBeta _ => False

/-- The variables of the main ULT are those of another memory. -/
def SameMain (before m : Memory K) : Prop :=
  ∀ location, location.OfMain → m location = before location

theorem Location.OwnedBy.not_ofMain {mine : List ℕ} {thread : ℕ} {location : Location}
    (owned : location.OwnedBy mine thread) : ¬ location.OfMain := by
  cases location <;> simp_all [Location.OwnedBy, Location.OfMain]

/-- Private actions of a ULT leave alone what it does not own. -/
theorem execAll_of_not_owned {shared : Set Location} {mine : List ℕ} {thread : ℕ}
    {items : List Action} (isPrivate : ∀ action ∈ items, action.Private s shared mine thread)
    {location : Location} (unowned : ¬ location.OwnedBy mine thread) (m : Memory K) :
    execAll (exec s context) items m location = m location := by
  refine (footprint s context).frame_all (fun _ _ _ _ => trivial) trivial ?_
  rintro action member rfl
  exact unowned (isPrivate action member).writes

theorem SameMain.private {before m : Memory K} (same : SameMain before m) {shared : Set Location}
    {mine : List ℕ} {thread : ℕ} {items : List Action}
    (isPrivate : ∀ action ∈ items, action.Private s shared mine thread) :
    SameMain before (execAll (exec s context) items m) := by
  intro location main
  rw [execAll_of_not_owned isPrivate (fun owned => owned.not_ofMain main), same location main]

/-! ## One loop with its ULTs -/

theorem sequential_createThreads (arguments threadFunc : ℕ → List Action) :
    sequential (createThreads context arguments threadFunc) =
      (List.range context.numThreads).flatMap fun thread =>
        arguments thread ++ threadFunc thread := by
  rw [sequential, createThreads, List.flatMap_assoc]
  refine List.flatMap_congr fun thread _ => ?_
  exact (sequential_append _ _).trans
    (by rw [sequential_acts]; simp [sequential, createThread, Instr.actions])

variable (s context) in
/-- The memory after the ULTs of a loop have run one after the other. -/
def afterThreads (arguments threadFunc : ℕ → List Action) (m : Memory K) : Memory K :=
  execAll (exec s context) (sequential (createThreads context arguments threadFunc)) m

/-- **The ULTs of a loop, one after the other**, are the loop, and what they leave in
their slots adds up to its sum. -/
theorem createThreads_values {turn : ℕ → Vectors K → Vectors K × K} {total : ℕ}
    {shared : Set Location} (arguments threadFunc : ℕ → List Action)
    (value : ℕ → Memory K → K) (m : Memory K)
    (isPrivate : ∀ thread, ∀ action ∈ arguments thread ++ threadFunc thread,
      action.Private s shared (slice context total thread) thread)
    (own : ∀ thread now, SameMain m now →
      vectors (execAll (exec s context) (arguments thread ++ threadFunc thread) now) =
          (gather turn (slice context total thread) (vectors now)).1 ∧
        value thread (execAll (exec s context) (arguments thread ++ threadFunc thread) now) =
          (gather turn (slice context total thread) (vectors now)).2)
    (others : ∀ thread other, other ≠ thread → ∀ now,
      value other (execAll (exec s context) (arguments thread ++ threadFunc thread) now) =
        value other now) :
    SameMain m (afterThreads s context arguments threadFunc m) ∧
      vectors (afterThreads s context arguments threadFunc m) =
        (gather turn (span 0 total) (vectors m)).1 ∧
      ∑ thread ∈ Finset.range context.numThreads,
          value thread (afterThreads s context arguments threadFunc m) =
        (gather turn (span 0 total) (vectors m)).2 := by
  rw [afterThreads, sequential_createThreads, span, Nat.sub_zero, ← List.range_eq_range']
  refine (slices context total).gather_slices (fun thread within now same => ?_) others
    fun _ _ => rfl
  rw [← slice_eq_part context total within]
  exact ⟨same.private (isPrivate thread), own thread now same⟩

/-- The slots may be locations with the numbers of the ULTs. -/
theorem createThreads_slots {turn : ℕ → Vectors K → Vectors K × K} {total : ℕ}
    {shared : Set Location} (arguments threadFunc : ℕ → List Action) (slot : ℕ → Location)
    (m : Memory K)
    (numbered : ∀ thread other mine, (slot other).OwnedBy mine thread → other = thread)
    (isPrivate : ∀ thread, ∀ action ∈ arguments thread ++ threadFunc thread,
      action.Private s shared (slice context total thread) thread)
    (own : ∀ thread now, SameMain m now →
      vectors (execAll (exec s context) (arguments thread ++ threadFunc thread) now) =
          (gather turn (slice context total thread) (vectors now)).1 ∧
        execAll (exec s context) (arguments thread ++ threadFunc thread) now (slot thread) =
          (gather turn (slice context total thread) (vectors now)).2) :
    SameMain m (afterThreads s context arguments threadFunc m) ∧
      vectors (afterThreads s context arguments threadFunc m) =
        (gather turn (span 0 total) (vectors m)).1 ∧
      ∑ thread ∈ Finset.range context.numThreads,
          afterThreads s context arguments threadFunc m (slot thread) =
        (gather turn (span 0 total) (vectors m)).2 :=
  createThreads_values arguments threadFunc (fun thread m => m (slot thread)) m isPrivate own
    fun thread other different now => execAll_of_not_owned (isPrivate thread)
      (fun owned => different (numbered thread other _ owned)) now

/-! ## The ULTs of every loop -/

/-- One turn of the loop that moves `z` and `r`, and what it adds to `rho`. -/
def updateGather (alpha : K) (j : ℕ) (v : Vectors K) : Vectors K × K :=
  let moved := (Sequential.updateTurn alpha j (v, 0)).1
  (moved, moved.r j * moved.r j)

section Threads

variable (thread : ℕ) (m : Memory K)

theorem conjGradInitThread_values :
    vectors (execAll (exec s context) (conjGradInitThread s context thread) m) =
        (gather (fun j v => (Sequential.initTurn s j v, (0 : K)))
          (slice context (s.naa + 1) thread) (vectors m)).1 ∧
      0 = (gather (fun j v => (Sequential.initTurn s j v, (0 : K)))
          (slice context (s.naa + 1) thread) (vectors m)).2 := by
  have body : conjGradInitThread s context thread =
      [] ++ conjGradInitThread s context thread ++ [] := by
    simp
  rw [body]
  refine execAll_slice (fun _ => True) (fun _ : Memory K => (0 : K)) (fun _ => 0) ?_ ?_ ?_
  · simp
  · intro j _ now _
    simp [exec, Action.target, Action.value, Sequential.initTurn]
  · simp

theorem conjGradRhoThread_values :
    vectors (execAll (exec s context) (conjGradRhoThread s context thread) m) =
        (gather (fun j v => (v, v.r j * v.r j)) (slice context s.ncols thread) (vectors m)).1 ∧
      execAll (exec s context) (conjGradRhoThread s context thread) m (.rhoValue thread) =
        (gather (fun j v => (v, v.r j * v.r j)) (slice context s.ncols thread) (vectors m)).2 := by
  refine execAll_slice (fun _ => True) (fun m : Memory K => m (.rhoLocal thread))
    (fun m => m (.rhoValue thread)) ?_ ?_ ?_
  · simp [exec, Action.target, Action.value]
  · intro j _ now _
    simp [exec, Action.target, Action.value]
  · intro now
    simp [exec, Action.target, Action.value]

variable (s context) in
/-- The loop over a row of the matrix. -/
theorem execAll_addSuml (items : List ℕ) :
    vectors (execAll (exec s context) (items.map fun k => .addSuml thread k) m) = vectors m ∧
      execAll (exec s context) (items.map fun k => .addSuml thread k) m (.suml thread) =
        loop items (fun k suml => suml + s.a k * m (.p (s.colidx k))) (m (.suml thread)) := by
  induction items generalizing m with
  | nil => exact ⟨rfl, rfl⟩
  | cons k items ih =>
      obtain ⟨viewed, summed⟩ := ih (exec s context (.addSuml thread k) m)
      rw [List.map_cons, execAll_cons, loop_cons]
      refine ⟨?_, ?_⟩
      · rw [viewed]
        simp [exec, Action.target]
      · rw [summed]
        simp [exec, Action.target, Action.value]

theorem conjGradQThread_values :
    vectors (execAll (exec s context) (conjGradQThread s context thread) m) =
        (gather (fun j v => (Sequential.qTurn s j v, (0 : K))) (slice context s.nrows thread)
          (vectors m)).1 ∧
      0 = (gather (fun j v => (Sequential.qTurn s j v, (0 : K))) (slice context s.nrows thread)
          (vectors m)).2 := by
  have body : conjGradQThread s context thread = [] ++ conjGradQThread s context thread ++ [] := by
    simp
  rw [body]
  refine execAll_slice (fun _ => True) (fun _ : Memory K => (0 : K)) (fun _ => 0) ?_ ?_ ?_
  · simp
  · intro j _ now _
    obtain ⟨viewed, summed⟩ := execAll_addSuml s context thread
      (exec s context (.clearSuml thread) now) (span (s.rowstr j) (s.rowstr (j + 1)))
    refine ⟨trivial, ?_, by simp⟩
    rw [execAll_append, execAll_append]
    simp only [execAll_cons, execAll_nil]
    rw [show exec s context (.storeQ thread j) = fun m : Memory K =>
      Function.update m (.q j) (m (.suml thread)) from rfl]
    simp only [vectors_update_q, viewed, summed]
    simp [exec, Action.target, Action.value, Sequential.qTurn, Sequential.rowProduct]
  · simp

theorem conjGradDThread_values :
    vectors (execAll (exec s context) (conjGradDThread s context thread) m) =
        (gather (fun j v => (v, v.p j * v.q j)) (slice context s.ncols thread) (vectors m)).1 ∧
      execAll (exec s context) (conjGradDThread s context thread) m (.dValue thread) =
        (gather (fun j v => (v, v.p j * v.q j)) (slice context s.ncols thread) (vectors m)).2 := by
  refine execAll_slice (fun _ => True) (fun m : Memory K => m (.dLocal thread))
    (fun m => m (.dValue thread)) ?_ ?_ ?_
  · simp [exec, Action.target, Action.value]
  · intro j _ now _
    simp [exec, Action.target, Action.value]
  · intro now
    simp [exec, Action.target, Action.value]

theorem conjGradUpdateThread_values {alpha : K} (given : m .alpha = alpha) :
    vectors (execAll (exec s context)
        ([.passAlpha thread] ++ conjGradUpdateThread s context thread) m) =
        (gather (updateGather alpha) (slice context s.ncols thread) (vectors m)).1 ∧
      execAll (exec s context) ([.passAlpha thread] ++ conjGradUpdateThread s context thread) m
          (.rhoValue thread) =
        (gather (updateGather alpha) (slice context s.ncols thread) (vectors m)).2 := by
  rw [conjGradUpdateThread, ← List.append_assoc, ← List.append_assoc]
  refine execAll_slice (fun m : Memory K => m (.alphaLocal thread) = alpha)
    (fun m => m (.rhoLocal thread)) (fun m => m (.rhoValue thread)) ?_ ?_ ?_
  · simp [exec, Action.target, Action.value, given]
  · intro j _ now ready
    simp [exec, Action.target, Action.value, ready, updateGather, Sequential.updateTurn]
  · intro now
    simp [exec, Action.target, Action.value]

theorem conjGradPThread_values {beta : K} (given : m .beta = beta) :
    vectors (execAll (exec s context)
        ([.passBeta thread] ++ conjGradPThread s context thread) m) =
        (gather (fun j v => (Sequential.pTurn beta j v, (0 : K))) (slice context s.ncols thread)
          (vectors m)).1 ∧
      0 = (gather (fun j v => (Sequential.pTurn beta j v, (0 : K))) (slice context s.ncols thread)
          (vectors m)).2 := by
  rw [conjGradPThread, ← List.append_assoc, ← List.append_nil (_ ++ List.flatMap _ _)]
  refine execAll_slice (fun m : Memory K => m (.betaLocal thread) = beta)
    (fun _ => (0 : K)) (fun _ => 0) ?_ ?_ ?_
  · simp [exec, Action.target, Action.value, given]
  · intro j _ now ready
    simp [exec, Action.target, Action.value, ready, Sequential.pTurn]
  · simp

theorem conjGradFinalThread_values :
    vectors (execAll (exec s context) (conjGradFinalThread s context thread) m) =
        (gather (fun j v => (v, (s.x j - v.r j) * (s.x j - v.r j))) (slice context s.ncols thread)
          (vectors m)).1 ∧
      execAll (exec s context) (conjGradFinalThread s context thread) m (.sumValue thread) =
        (gather (fun j v => (v, (s.x j - v.r j) * (s.x j - v.r j))) (slice context s.ncols thread)
          (vectors m)).2 := by
  refine execAll_slice (fun _ => True) (fun m : Memory K => m (.sumLocal thread))
    (fun m => m (.sumValue thread)) ?_ ?_ ?_
  · simp [exec, Action.target, Action.value]
  · intro j _ now _
    simp [exec, Action.target, Action.value]
  · intro now
    simp [exec, Action.target, Action.value]

end Threads

/-! ## The loops of the main ULT -/

section Loops

variable (s context) (m : Memory K)

theorem afterThreads_init :
    vectors (afterThreads s context (fun _ => []) (conjGradInitThread s context) m) =
      loop (span 0 (s.naa + 1)) (Sequential.initTurn s) (vectors m) := by
  obtain ⟨-, viewed, -⟩ := createThreads_values (fun _ => []) (conjGradInitThread s context)
    (fun _ _ => 0) m (fun thread action member => conjGradInitThread_private member)
    (fun thread now _ => conjGradInitThread_values thread now) fun _ _ _ _ => rfl
  rw [viewed, gather_fst]

theorem afterThreads_rho :
    vectors (afterThreads s context (fun _ => []) (conjGradRhoThread s context) m) = vectors m ∧
      ∑ thread ∈ Finset.range context.numThreads,
          afterThreads s context (fun _ => []) (conjGradRhoThread s context) m (.rhoValue thread) =
        loop (span 0 s.ncols) (fun j rho => rho + m (.r j) * m (.r j)) 0 := by
  obtain ⟨-, viewed, summed⟩ := createThreads_slots (fun _ => []) (conjGradRhoThread s context)
    .rhoValue m (fun _ _ _ => id) (fun thread action member => conjGradRhoThread_private member)
    fun thread now _ => conjGradRhoThread_values thread now
  rw [gather_still] at viewed
  exact ⟨viewed, by rw [summed, ← zero_add (Prod.snd _), gather_snd]; rfl⟩

theorem afterThreads_q :
    SameMain m (afterThreads s context (fun _ => []) (conjGradQThread s context) m) ∧
      vectors (afterThreads s context (fun _ => []) (conjGradQThread s context) m) =
        loop (span 0 s.nrows) (Sequential.qTurn s) (vectors m) := by
  obtain ⟨same, viewed, -⟩ := createThreads_values (fun _ => []) (conjGradQThread s context)
    (fun _ _ => 0) m (fun thread action member => conjGradQThread_private member)
    (fun thread now _ => conjGradQThread_values thread now) fun _ _ _ _ => rfl
  exact ⟨same, by rw [viewed, gather_fst]⟩

theorem afterThreads_d :
    SameMain m (afterThreads s context (fun _ => []) (conjGradDThread s context) m) ∧
      vectors (afterThreads s context (fun _ => []) (conjGradDThread s context) m) = vectors m ∧
      ∑ thread ∈ Finset.range context.numThreads,
          afterThreads s context (fun _ => []) (conjGradDThread s context) m (.dValue thread) =
        loop (span 0 s.ncols) (fun j d => d + m (.p j) * m (.q j)) 0 := by
  obtain ⟨same, viewed, summed⟩ := createThreads_slots (fun _ => []) (conjGradDThread s context)
    .dValue m (fun _ _ _ => id) (fun thread action member => conjGradDThread_private member)
    fun thread now _ => conjGradDThread_values thread now
  rw [gather_still] at viewed
  exact ⟨same, viewed, by rw [summed, ← zero_add (Prod.snd _), gather_snd]; rfl⟩

theorem afterThreads_update :
    SameMain m (afterThreads s context (fun thread => [.passAlpha thread])
        (conjGradUpdateThread s context) m) ∧
      (vectors (afterThreads s context (fun thread => [.passAlpha thread])
          (conjGradUpdateThread s context) m),
        ∑ thread ∈ Finset.range context.numThreads,
          afterThreads s context (fun thread => [.passAlpha thread])
            (conjGradUpdateThread s context) m (.rhoValue thread)) =
        loop (span 0 s.ncols) (Sequential.updateTurn (m .alpha)) (vectors m, 0) := by
  obtain ⟨same, viewed, summed⟩ := createThreads_slots (fun thread => [.passAlpha thread])
    (conjGradUpdateThread s context) .rhoValue m (fun _ _ _ => id)
    (fun thread action member => conjGradUpdateThread_private member)
    fun thread now same => conjGradUpdateThread_values thread now (same .alpha trivial)
  refine ⟨same, ?_⟩
  rw [viewed, summed, ← zero_add (Prod.snd _), ← loop_eq_gather]
  rfl

theorem afterThreads_p :
    SameMain m (afterThreads s context (fun thread => [.passBeta thread])
        (conjGradPThread s context) m) ∧
      vectors (afterThreads s context (fun thread => [.passBeta thread])
          (conjGradPThread s context) m) =
        loop (span 0 s.ncols) (Sequential.pTurn (m .beta)) (vectors m) := by
  obtain ⟨same, viewed, -⟩ := createThreads_values (fun thread => [.passBeta thread])
    (conjGradPThread s context) (fun _ _ => 0) m
    (fun thread action member => conjGradPThread_private member)
    (fun thread now same => conjGradPThread_values thread now (same .beta trivial))
    fun _ _ _ _ => rfl
  exact ⟨same, by rw [viewed, gather_fst]⟩

theorem afterThreads_final :
    vectors (afterThreads s context (fun _ => []) (conjGradFinalThread s context) m) =
      vectors m := by
  obtain ⟨-, viewed, -⟩ := createThreads_slots (fun _ => []) (conjGradFinalThread s context)
    .sumValue m (fun _ _ _ => id) (fun thread action member => conjGradFinalThread_private member)
    fun thread now _ => conjGradFinalThread_values thread now
  rw [viewed, gather_still]

theorem afterThreads_sum :
    ∑ thread ∈ Finset.range context.numThreads,
        afterThreads s context (fun _ => []) (conjGradFinalThread s context) m (.sumValue thread) =
      loop (span 0 s.ncols) (fun j sum => sum + (s.x j - m (.r j)) * (s.x j - m (.r j))) 0 := by
  obtain ⟨-, -, summed⟩ := createThreads_slots (fun _ => []) (conjGradFinalThread s context)
    .sumValue m (fun _ _ _ => id) (fun thread action member => conjGradFinalThread_private member)
    fun thread now _ => conjGradFinalThread_values thread now
  rw [summed, ← zero_add (Prod.snd _), gather_snd]
  rfl

end Loops

/-! ## The code of the main ULT -/

/-- `reduce_sum_double` adds up its array. -/
theorem reduceSumDouble_eq_sum (values : ℕ → K) :
    reduceSumDouble context values = ∑ thread ∈ Finset.range context.numThreads, values thread := by
  have law : FoldLaw (· + · : K → K → K) 0 := .of_unit add_assoc add_zero
  rw [reduceSumDouble, Tree.treeValue_eq_foldl values context.numThreads context law,
    List.foldl_map]
  exact (loop_add values context.numThreads 0).trans (zero_add _)

/-- The vectors and `rho` of the main ULT are those of the sequential program. -/
structure Follows (m : Memory K) (state : Vectors K × K) : Prop where
  vectors : vectors m = state.1
  rho : m .rho = state.2

section Code

variable (s context)

theorem execAll_initCode (m : Memory K) :
    execAll (exec s context) (sequential (initCode s context)) m =
      execAll (exec s context) [.clearRho, .reduceRho]
        (afterThreads s context (fun _ => []) (conjGradRhoThread s context)
          (afterThreads s context (fun _ => []) (conjGradInitThread s context) m)) := by
  simp only [initCode, joinThreads, sequential_append, execAll_append, sequential_joins,
    execAll_nil, afterThreads]
  rfl

/-- The code up to the first `rho` computes the vectors and `rho` that the iteration
loop starts with. -/
theorem follows_init (m : Memory K) :
    Follows (execAll (exec s context) (sequential (initCode s context)) m)
      (Sequential.init s (vectors m)) := by
  obtain ⟨viewed, summed⟩ := afterThreads_rho s context
    (afterThreads s context (fun _ => []) (conjGradInitThread s context) m)
  have initialized := afterThreads_init s context m
  rw [execAll_initCode]
  constructor
  · simp [exec, Action.target, viewed, initialized, Sequential.init]
  · simp [exec, Action.target, Action.value, reduceSumDouble_eq_sum, summed, Sequential.init,
      ← initialized]

theorem execAll_cgTurn (m : Memory K) :
    execAll (exec s context) (sequential (cgTurn s context)) m =
      afterThreads s context (fun thread => [.passBeta thread]) (conjGradPThread s context)
        (execAll (exec s context) [.reduceRho, .divideBeta]
          (afterThreads s context (fun thread => [.passAlpha thread])
            (conjGradUpdateThread s context)
            (execAll (exec s context) [.reduceD, .divideAlpha]
              (afterThreads s context (fun _ => []) (conjGradDThread s context)
                (afterThreads s context (fun _ => []) (conjGradQThread s context)
                  (execAll (exec s context) [.saveRho, .clearD, .clearRho] m)))))) := by
  simp only [cgTurn, joinThreads, sequential_append, execAll_append, sequential_joins,
    execAll_nil, afterThreads]
  rfl

theorem execAll_saveRho (m : Memory K) :
    vectors (execAll (exec s context) [.saveRho, .clearD, .clearRho] m) = vectors m ∧
      execAll (exec s context) [.saveRho, .clearD, .clearRho] m .rho0 = m .rho := by
  simp [exec, Action.target, Action.value]

theorem execAll_divideAlpha (m : Memory K) :
    vectors (execAll (exec s context) [.reduceD, .divideAlpha] m) = vectors m ∧
      execAll (exec s context) [.reduceD, .divideAlpha] m .rho0 = m .rho0 ∧
      execAll (exec s context) [.reduceD, .divideAlpha] m .alpha =
        m .rho0 / ∑ thread ∈ Finset.range context.numThreads, m (.dValue thread) := by
  simp [exec, Action.target, Action.value, reduceSumDouble_eq_sum]

theorem execAll_divideBeta (m : Memory K) :
    vectors (execAll (exec s context) [.reduceRho, .divideBeta] m) = vectors m ∧
      execAll (exec s context) [.reduceRho, .divideBeta] m .rho =
        ∑ thread ∈ Finset.range context.numThreads, m (.rhoValue thread) ∧
      execAll (exec s context) [.reduceRho, .divideBeta] m .beta =
        (∑ thread ∈ Finset.range context.numThreads, m (.rhoValue thread)) / m .rho0 := by
  simp [exec, Action.target, Action.value, reduceSumDouble_eq_sum]

/-- **One turn of the iteration loop.** -/
theorem Follows.cgTurn {m : Memory K} {state : Vectors K × K} (follows : Follows m state) :
    Follows (execAll (exec s context) (sequential (cgTurn s context)) m)
      (Sequential.cgTurn s state) := by
  rw [execAll_cgTurn]
  obtain ⟨viewed, saved⟩ := execAll_saveRho s context m
  rw [follows.vectors] at viewed
  rw [follows.rho] at saved
  generalize execAll (exec s context) [.saveRho, .clearD, .clearRho] m = m₁ at *
  obtain ⟨mainQ, viewedQ⟩ := afterThreads_q s context m₁
  generalize afterThreads s context (fun _ => []) (conjGradQThread s context) m₁ = m₂ at *
  obtain ⟨mainD, viewedD, dValues⟩ := afterThreads_d s context m₂
  generalize afterThreads s context (fun _ => []) (conjGradDThread s context) m₂ = m₃ at *
  obtain ⟨viewedAlpha, keptAlpha, alpha⟩ := execAll_divideAlpha s context m₃
  generalize execAll (exec s context) [.reduceD, .divideAlpha] m₃ = m₄ at *
  obtain ⟨mainUpdate, updated⟩ := afterThreads_update s context m₄
  generalize afterThreads s context (fun thread => [.passAlpha thread])
    (conjGradUpdateThread s context) m₄ = m₅ at *
  obtain ⟨viewedBeta, rho, beta⟩ := execAll_divideBeta s context m₅
  generalize execAll (exec s context) [.reduceRho, .divideBeta] m₅ = m₆ at *
  obtain ⟨mainP, viewedP⟩ := afterThreads_p s context m₆
  have multiplied : Sequential.multiply s state.1 =
      (Solver.vectors m₄, ∑ thread ∈ Finset.range context.numThreads, m₃ (.dValue thread)) := by
    rw [Sequential.multiply, ← viewed, ← viewedQ, dValues, viewedAlpha, viewedD]
    rfl
  have kept : m₃ .rho0 = state.2 := by
    rw [mainD .rho0 trivial, mainQ .rho0 trivial, saved]
  have keptUpdate : m₅ .rho0 = state.2 := by
    rw [mainUpdate .rho0 trivial, keptAlpha, kept]
  rw [kept] at alpha
  rw [keptUpdate] at beta
  have turn : Sequential.cgTurn s state =
      (Solver.vectors (afterThreads s context (fun thread => [.passBeta thread])
        (conjGradPThread s context) m₆), m₆ .rho) := by
    simp only [Sequential.cgTurn, multiplied, ← alpha, ← updated, viewedP, viewedBeta, beta, rho]
  rw [turn]
  exact ⟨rfl, mainP .rho trivial⟩

/-- **The whole iteration loop.** -/
theorem Follows.loop {m : Memory K} {state : Vectors K × K} (follows : Follows m state)
    (turns : List ℕ) :
    Follows
      (execAll (exec s context) (sequential (turns.flatMap fun _ => Solver.cgTurn s context)) m)
      (Containers.loop turns (fun _ => Sequential.cgTurn s) state) := by
  induction turns generalizing m state with
  | nil => exact follows
  | cons turn turns ih =>
      rw [List.flatMap_cons, sequential_append, execAll_append, loop_cons]
      exact ih (follows.cgTurn s context)

/-- The sequential program leaves `z` alone after its iteration loop. -/
theorem conjGrad_z (v : Vectors K) :
    (Sequential.conjGrad s v).1.z =
      (Containers.loop (span 1 (cgitmax + 1)) (fun _ => Sequential.cgTurn s)
        (Sequential.init s v)).1.z := by
  generalize turned : Containers.loop (span 1 (cgitmax + 1)) (fun _ => Sequential.cgTurn s)
    (Sequential.init s v) = state
  obtain ⟨left, rho⟩ := state
  rw [Sequential.conjGrad, turned]
  refine loop_keeps (fun after : Vectors K => after.z = left.z) ?_ rfl
  exact fun _ _ _ same => same

/-- The code after the iteration loop follows the loop. -/
theorem execAll_loop (m : Memory K) :
    ∃ m', Follows m' (Containers.loop (span 1 (cgitmax + 1)) (fun _ => Sequential.cgTurn s)
        (Sequential.init s (vectors m))) ∧
      execAll (exec s context) (sequential (conjGrad s context)) m =
        execAll (exec s context) [.clearSum, .reduceSum, .storeRnorm]
          (afterThreads s context (fun _ => []) (conjGradFinalThread s context) m') := by
  refine ⟨_, (follows_init s context m).loop s context (span 1 (cgitmax + 1)), ?_⟩
  simp only [conjGrad, loopCode, joinThreads, sequential_append, execAll_append,
    sequential_joins, execAll_nil, afterThreads]
  rfl

/-- **The whole code leaves the `z` of the sequential program.** -/
theorem execAll_conjGrad (m : Memory K) (j : ℕ) :
    execAll (exec s context) (sequential (conjGrad s context)) m (.z j) =
      (Sequential.conjGrad s (vectors m)).1.z j := by
  obtain ⟨m', follows, final⟩ := execAll_loop s context m
  rw [final, conjGrad_z, ← follows.vectors, ← afterThreads_final s context]
  simp [exec, Action.target]

end Code

end ArgobotsReduction.ConjugateGradient.Solver
