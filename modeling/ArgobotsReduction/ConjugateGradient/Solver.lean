import ArgobotsReduction.Containers.Loops
import ArgobotsReduction.Parallel.ForkJoin
import ArgobotsReduction.Reduction.Tree

/-!
# `conj_grad`

The solver of the CG benchmark, once as the sequential program has it
(`Sequential.conjGrad`) and once with its loops forked as ULTs (`conjGrad`).

Every loop of the second is cut into one slice for each ULT.  The main ULT
creates them, ULT `i` in the pool `i` modulo the number of pools, and joins them
before it goes on.  Only the ULTs of the first loop are not joined: their handles
in `reduction_context.threads` are overwritten by those of the second.

One assignment is one atomic step of a ULT.  A call of `reduce_sum_double` is one
step of the main ULT, which leaves the value that every schedule of the reduction
leaves.  The arithmetic is exact.
-/

set_option autoImplicit false

namespace ArgobotsReduction.ConjugateGradient.Solver

open Containers Parallel Parallel.ForkJoin Reduction

universe u

/-- What `conj_grad` reads and never writes.  Row `j` of the matrix lies in the
positions from `rowstr j` up to `rowstr (j + 1)` of `a` and `colidx`. -/
structure System (K : Type) where
  na : ℕ
  a : ℕ → K
  colidx : ℕ → ℕ
  rowstr : ℕ → ℕ
  x : ℕ → K
  sqrt : K → K

namespace System

variable {K : Type} (s : System K)

/-! The bounds as `main` sets them. -/

def naa : ℕ := s.na

def firstrow : ℤ := 0

def lastrow : ℤ := s.na - 1

def firstcol : ℤ := 0

def lastcol : ℤ := s.na - 1

/-- `lastrow - firstrow + 1` -/
def nrows : ℕ := (s.lastrow - firstrow + 1).toNat

/-- `lastcol - firstcol + 1` -/
def ncols : ℕ := (s.lastcol - firstcol + 1).toNat

theorem ncols_eq : s.ncols = s.na := by
  simp [ncols, lastcol, firstcol]

end System

def cgitmax : ℕ := 25

/-- The vectors `conj_grad` works on. -/
@[ext]
structure Vectors (K : Type) where
  q : ℕ → K
  z : ℕ → K
  r : ℕ → K
  p : ℕ → K

variable {K : Type} [Field K] (s : System K)

/-! ## The sequential program -/

namespace Sequential

/-- One turn of the loop that initializes the vectors. -/
def initTurn (j : ℕ) (v : Vectors K) : Vectors K :=
  let v := { v with q := Function.update v.q j 0 }
  let v := { v with z := Function.update v.z j 0 }
  let v := { v with r := Function.update v.r j (s.x j) }
  { v with p := Function.update v.p j (v.r j) }

/-- The product of row `j` of the matrix and a vector. -/
def rowProduct (vector : ℕ → K) (j : ℕ) : K :=
  loop (span (s.rowstr j) (s.rowstr (j + 1)))
    (fun k suml => suml + s.a k * vector (s.colidx k)) 0

/-- One turn of the loop that computes `q = A.p`. -/
def qTurn (j : ℕ) (v : Vectors K) : Vectors K :=
  { v with q := Function.update v.q j (rowProduct s v.p j) }

/-- One turn of the loop that moves `z` and `r`, and sums up `rho`. -/
def updateTurn (alpha : K) (j : ℕ) : Vectors K × K → Vectors K × K
  | (v, rho) =>
      let v := { v with z := Function.update v.z j (v.z j + alpha * v.p j) }
      let v := { v with r := Function.update v.r j (v.r j - alpha * v.q j) }
      (v, rho + v.r j * v.r j)

/-- One turn of the loop that computes `p = r + beta*p`. -/
def pTurn (beta : K) (j : ℕ) (v : Vectors K) : Vectors K :=
  { v with p := Function.update v.p j (v.r j + beta * v.p j) }

/-- The vectors and `rho` before the iteration loop. -/
def init (v : Vectors K) : Vectors K × K :=
  let v := loop (span 0 (s.naa + 1)) (initTurn s) v
  (v, loop (span 0 s.ncols) (fun j rho => rho + v.r j * v.r j) 0)

/-- `q = A.p` and `d = p.q` in one iteration. -/
def multiply (v : Vectors K) : Vectors K × K :=
  let v := loop (span 0 s.nrows) (qTurn s) v
  (v, loop (span 0 s.ncols) (fun j d => d + v.p j * v.q j) 0)

/-- One turn of the iteration loop. -/
def cgTurn (state : Vectors K × K) : Vectors K × K :=
  let rho0 := state.2
  let (v, d) := multiply s state.1
  let alpha := rho0 / d
  let (v, rho) := loop (span 0 s.ncols) (updateTurn alpha) (v, 0)
  let beta := rho / rho0
  (loop (span 0 s.ncols) (pTurn beta) v, rho)

/-- `conj_grad`: the vectors it leaves, and `rnorm`. -/
def conjGrad (v : Vectors K) : Vectors K × K :=
  let (v, _) := loop (span 1 (cgitmax + 1)) (fun _ => cgTurn s) (init s v)
  let v := loop (span 0 s.nrows)
    (fun j v => { v with r := Function.update v.r j (rowProduct s v.z j) }) v
  let sum := loop (span 0 s.ncols)
    (fun j sum => sum + (s.x j - v.r j) * (s.x j - v.r j)) 0
  (v, s.sqrt sum)

/-- No turn of the iteration loop divides by zero. -/
def NoDivisionByZero (v : Vectors K) : Prop :=
  ∀ turn < cgitmax, (multiply s ((cgTurn s)^[turn] (init s v)).1).2 ≠ 0 ∧
    ((cgTurn s)^[turn] (init s v)).2 ≠ 0

end Sequential

/-! ## Memory and actions of the parallel program -/

/-- What the ULTs work on: the vectors, the local variables of every ULT, its
slots in `rho_values`, `d_values` and `sum_values`, the `alpha` and `beta` of its
arguments, and the variables of the main ULT. -/
inductive Location where
  | q (j : ℕ)
  | z (j : ℕ)
  | r (j : ℕ)
  | p (j : ℕ)
  | suml (thread : ℕ)
  | rhoLocal (thread : ℕ)
  | dLocal (thread : ℕ)
  | sumLocal (thread : ℕ)
  | alphaLocal (thread : ℕ)
  | betaLocal (thread : ℕ)
  | rhoValue (thread : ℕ)
  | dValue (thread : ℕ)
  | sumValue (thread : ℕ)
  | argsAlpha (thread : ℕ)
  | argsBeta (thread : ℕ)
  | rho
  | rho0
  | d
  | sum
  | alpha
  | beta
  | rnorm
  deriving DecidableEq

abbrev Memory (K : Type) := Location → K

def vectors (m : Memory K) : Vectors K :=
  ⟨fun j => m (.q j), fun j => m (.z j), fun j => m (.r j), fun j => m (.p j)⟩

/-- The assignments of the ULTs, under the names of what they write, and those of
the main ULT. -/
inductive Action where
  | initQ (j : ℕ)
  | initZ (j : ℕ)
  | initR (j : ℕ)
  | initP (j : ℕ)
  | clearRhoLocal (thread : ℕ)
  | addRho (thread j : ℕ)
  | storeRho (thread : ℕ)
  | clearSuml (thread : ℕ)
  | addSuml (thread k : ℕ)
  | storeQ (thread j : ℕ)
  | clearDLocal (thread : ℕ)
  | addD (thread j : ℕ)
  | storeD (thread : ℕ)
  | loadAlpha (thread : ℕ)
  | updateZ (thread j : ℕ)
  | updateR (thread j : ℕ)
  | loadBeta (thread : ℕ)
  | updateP (thread j : ℕ)
  | clearSumLocal (thread : ℕ)
  | subtract (thread j : ℕ)
  | addSum (thread : ℕ)
  | storeSum (thread : ℕ)
  | clearRho
  | reduceRho
  | saveRho
  | clearD
  | reduceD
  | divideAlpha
  | passAlpha (thread : ℕ)
  | divideBeta
  | passBeta (thread : ℕ)
  | clearSum
  | reduceSum
  | storeRnorm

/-- The location an action writes. -/
def Action.target : Action → Location
  | .initQ j | .storeQ _ j => .q j
  | .initZ j | .updateZ _ j => .z j
  | .initR j | .updateR _ j => .r j
  | .initP j | .updateP _ j => .p j
  | .clearRhoLocal thread | .addRho thread _ => .rhoLocal thread
  | .storeRho thread => .rhoValue thread
  | .clearSuml thread | .addSuml thread _ | .subtract thread _ => .suml thread
  | .clearDLocal thread | .addD thread _ => .dLocal thread
  | .storeD thread => .dValue thread
  | .loadAlpha thread => .alphaLocal thread
  | .loadBeta thread => .betaLocal thread
  | .clearSumLocal thread | .addSum thread => .sumLocal thread
  | .storeSum thread => .sumValue thread
  | .clearRho | .reduceRho => .rho
  | .saveRho => .rho0
  | .clearD | .reduceD => .d
  | .divideAlpha => .alpha
  | .passAlpha thread => .argsAlpha thread
  | .divideBeta => .beta
  | .passBeta thread => .argsBeta thread
  | .clearSum | .reduceSum => .sum
  | .storeRnorm => .rnorm

/-- The locations an action reads. -/
def Action.reads : Action → Set Location
  | .initQ _ | .initZ _ | .initR _ | .clearRhoLocal _ | .clearSuml _ | .clearDLocal _
  | .clearSumLocal _ | .clearRho | .clearD | .clearSum => ∅
  | .initP j => {.r j}
  | .addRho thread j => {.rhoLocal thread, .r j}
  | .storeRho thread => {.rhoLocal thread}
  | .addSuml thread k => {.suml thread} ∪ {.p (s.colidx k)}
  | .storeQ thread _ => {.suml thread}
  | .addD thread j => {.dLocal thread, .p j, .q j}
  | .storeD thread => {.dLocal thread}
  | .loadAlpha thread => {.argsAlpha thread}
  | .updateZ thread j => {.z j, .alphaLocal thread, .p j}
  | .updateR thread j => {.r j, .alphaLocal thread, .q j}
  | .loadBeta thread => {.argsBeta thread}
  | .updateP thread j => {.r j, .betaLocal thread, .p j}
  | .subtract _ j => {.r j}
  | .addSum thread => {.sumLocal thread, .suml thread}
  | .storeSum thread => {.sumLocal thread}
  | .reduceRho => {location | ∃ thread, location = .rhoValue thread}
  | .saveRho => {.rho}
  | .reduceD => {location | ∃ thread, location = .dValue thread}
  | .divideAlpha => {.rho0, .d}
  | .passAlpha _ => {.alpha}
  | .divideBeta => {.rho, .rho0}
  | .passBeta _ => {.beta}
  | .reduceSum => {location | ∃ thread, location = .sumValue thread}
  | .storeRnorm => {.sum}

section Parallel

variable {Pool : Type u} (context : ReductionContext Pool)

/-- What `reduce_sum_double` leaves in its result for an array with one element for
each ULT. -/
def reduceSumDouble (values : ℕ → K) : K :=
  Tree.treeValue context (· + ·) values context.numThreads 0

/-- The value an action writes. -/
def Action.value (m : Memory K) : Action → K
  | .initQ _ | .initZ _ => 0
  | .initR j => s.x j
  | .initP j => m (.r j)
  | .clearRhoLocal _ | .clearSuml _ | .clearDLocal _ | .clearSumLocal _ => 0
  | .addRho thread j => m (.rhoLocal thread) + m (.r j) * m (.r j)
  | .storeRho thread => m (.rhoLocal thread)
  | .addSuml thread k => m (.suml thread) + s.a k * m (.p (s.colidx k))
  | .storeQ thread _ => m (.suml thread)
  | .addD thread j => m (.dLocal thread) + m (.p j) * m (.q j)
  | .storeD thread => m (.dLocal thread)
  | .loadAlpha thread => m (.argsAlpha thread)
  | .updateZ thread j => m (.z j) + m (.alphaLocal thread) * m (.p j)
  | .updateR thread j => m (.r j) - m (.alphaLocal thread) * m (.q j)
  | .loadBeta thread => m (.argsBeta thread)
  | .updateP thread j => m (.r j) + m (.betaLocal thread) * m (.p j)
  | .subtract _ j => s.x j - m (.r j)
  | .addSum thread => m (.sumLocal thread) + m (.suml thread) * m (.suml thread)
  | .storeSum thread => m (.sumLocal thread)
  | .clearRho | .clearD | .clearSum => 0
  | .reduceRho => reduceSumDouble context fun thread => m (.rhoValue thread)
  | .saveRho => m .rho
  | .reduceD => reduceSumDouble context fun thread => m (.dValue thread)
  | .divideAlpha => m .rho0 / m .d
  | .passAlpha _ => m .alpha
  | .divideBeta => m .rho / m .rho0
  | .passBeta _ => m .beta
  | .reduceSum => reduceSumDouble context fun thread => m (.sumValue thread)
  | .storeRnorm => s.sqrt (m .sum)

/-- One atomic step. -/
def exec (action : Action) (m : Memory K) : Memory K :=
  Function.update m action.target (action.value s context m)

/-! ## The ULTs -/

/-- The indices from `j_start` up to `j_stop` of a ULT: the last one takes the
remainder. -/
def slice (total thread : ℕ) : List ℕ :=
  let perThread := total / context.numThreads
  let jStart := thread * perThread
  span jStart (if thread = context.numThreads - 1 then total else jStart + perThread)

def conjGradInitThread (thread : ℕ) : List Action :=
  (slice context (s.naa + 1) thread).flatMap fun j => [.initQ j, .initZ j, .initR j, .initP j]

def conjGradRhoThread (thread : ℕ) : List Action :=
  [.clearRhoLocal thread] ++
    (slice context s.ncols thread).flatMap (fun j => [.addRho thread j]) ++ [.storeRho thread]

def conjGradQThread (thread : ℕ) : List Action :=
  (slice context s.nrows thread).flatMap fun j =>
    [.clearSuml thread] ++
      (span (s.rowstr j) (s.rowstr (j + 1))).map (fun k => .addSuml thread k) ++ [.storeQ thread j]

def conjGradDThread (thread : ℕ) : List Action :=
  [.clearDLocal thread] ++
    (slice context s.ncols thread).flatMap (fun j => [.addD thread j]) ++ [.storeD thread]

def conjGradUpdateThread (thread : ℕ) : List Action :=
  [.clearRhoLocal thread, .loadAlpha thread] ++
    (slice context s.ncols thread).flatMap
      (fun j => [.updateZ thread j, .updateR thread j, .addRho thread j]) ++
    [.storeRho thread]

def conjGradPThread (thread : ℕ) : List Action :=
  [.loadBeta thread] ++
    (slice context s.ncols thread).flatMap fun j => [.updateP thread j]

def conjGradFinalThread (thread : ℕ) : List Action :=
  [.clearSumLocal thread] ++
    (slice context s.ncols thread).flatMap (fun j => [.subtract thread j, .addSum thread]) ++
    [.storeSum thread]

/-! ## The main ULT -/

/-- `create_thread_with_estimate`: the ULT with the given number, in its pool. -/
def createThread (threadFunc : ℕ → List Action) (thread : ℕ) : Instr Pool ℕ Action :=
  .fork (context.pools ⟨thread % context.numPools, context.mod_numPools_lt thread⟩) thread
    (threadFunc thread)

/-- A loop over the ULTs that creates each of them, after an assignment to its
arguments where there is one. -/
def createThreads (arguments : ℕ → List Action) (threadFunc : ℕ → List Action) :
    List (Instr Pool ℕ Action) :=
  (List.range context.numThreads).flatMap fun thread =>
    (arguments thread).map .act ++ [createThread context threadFunc thread]

/-- The loop that joins and frees the ULTs in `reduction_context.threads`. -/
def joinThreads : List (Instr Pool ℕ Action) := (List.range context.numThreads).map .join

/-- The code of `conj_grad` up to the reduction of the first `rho`. -/
def initCode : List (Instr Pool ℕ Action) :=
  createThreads context (fun _ => []) (conjGradInitThread s context) ++
    createThreads context (fun _ => []) (conjGradRhoThread s context) ++ joinThreads context ++
    [.act .clearRho, .act .reduceRho]

/-- One turn of the iteration loop. -/
def cgTurn : List (Instr Pool ℕ Action) :=
  [.act .saveRho, .act .clearD, .act .clearRho] ++
    createThreads context (fun _ => []) (conjGradQThread s context) ++ joinThreads context ++
    createThreads context (fun _ => []) (conjGradDThread s context) ++ joinThreads context ++
    [.act .reduceD, .act .divideAlpha] ++
    createThreads context (fun thread => [.passAlpha thread]) (conjGradUpdateThread s context) ++
    joinThreads context ++ [.act .reduceRho, .act .divideBeta] ++
    createThreads context (fun thread => [.passBeta thread]) (conjGradPThread s context) ++
    joinThreads context

/-- The iteration loop and the code after it. -/
def loopCode : List (Instr Pool ℕ Action) :=
  ((span 1 (cgitmax + 1)).flatMap fun _ => cgTurn s context) ++
    createThreads context (fun _ => []) (conjGradFinalThread s context) ++ joinThreads context ++
    [.act .clearSum, .act .reduceSum, .act .storeRnorm]

def conjGrad : List (Instr Pool ℕ Action) := initCode s context ++ loopCode s context

/-- The second of two actions reads an element of `r` that the first one stores. -/
def StoresRead (first second : Action) : Prop :=
  ∃ j, first.target = .r j ∧ .r j ∈ second.reads s

end Parallel

end ArgobotsReduction.ConjugateGradient.Solver
