import ArgobotsReduction.Containers.Loops
import ArgobotsReduction.Parallel.Repeated
import ArgobotsReduction.Reduction.Extremum

/-!
# `jac3d`

The Jacobi solver, once as the sequential program has it (`Sequential.main`) and once with the
planes of the grid shared out among ULTs (`iterationCode`).

In one iteration the second program creates the ULTs that update `A`, ULT `t` in the pool `t`
modulo the number of pools, and joins them; takes the largest of the values they have left in
`eps_values` with `reduce_max_float`; and creates and joins the ULTs that update `B`.  The last
ULT takes the planes that are left over.

One assignment is one atomic step of a ULT.  The call of `reduce_max_float` is one step of
the main ULT, which leaves the value that every schedule of the reduction leaves
(`reduceMaxFloat_gives`).

A pool has lanes.  The ULTs of one lane run one after the other in the order of their creation,
as they do when one execution stream takes them from the pool.  Where streams steal from each
other, every ULT may be in a lane of its own, and all interleavings are possible.
-/

set_option autoImplicit false

namespace ArgobotsReduction.Jacobi

open Containers Parallel Parallel.ForkJoin Reduction

universe u

/-- The constants of the program, and its operations on `float`. -/
structure Jacobi3d (V : Type) where
  l : ℕ
  itmax : ℕ
  maxeps : V
  zero : V
  six : V
  fltMin : V
  add : V → V → V
  sub : V → V → V
  div : V → V → V
  fabs : V → V

/-- The indices `[i][j][k]`. -/
abbrev Cell := ℕ × ℕ × ℕ

@[ext]
structure Arrays (V : Type) where
  a : Cell → V
  b : Cell → V

section Operations

variable {V : Type} [LinearOrder V] (p : Jacobi3d V)

/-- `Max` -/
def maxOf (a b : V) : V := if a > b then a else b

/-- `reduce_max_float_func` -/
def reduceMaxFloatFunc (a b : V) : V := if a < b then b else a

omit [LinearOrder V] in
/-- The right-hand side of the assignment to `B[i][j][k]`. -/
def average (a : Cell → V) : Cell → V
  | (i, j, k) =>
      p.div
        (p.add (p.add (p.add (p.add (p.add (a (i - 1, j, k)) (a (i, j - 1, k)))
          (a (i, j, k - 1))) (a (i, j, k + 1))) (a (i, j + 1, k))) (a (i + 1, j, k)))
        p.six

/-- The range of every loop over the grid. -/
def inner : List ℕ := span 1 (p.l - 1)

end Operations

/-! ## The sequential program -/

namespace Sequential

variable {V : Type} [LinearOrder V] (p : Jacobi3d V)

/-- The body of the loops that update `A`. -/
def updateA (cell : Cell) : Arrays V × V → Arrays V × V
  | (arrays, eps) =>
      let tmp := p.fabs (p.sub (arrays.b cell) (arrays.a cell))
      let eps := maxOf tmp eps
      ({ arrays with a := Function.update arrays.a cell (arrays.b cell) }, eps)

/-- The body of the loops that update `B`. -/
def updateB (cell : Cell) (arrays : Arrays V) : Arrays V :=
  { arrays with b := Function.update arrays.b cell (average p arrays.a cell) }

/-- The loops over `j` and `k`. -/
def plane {σ : Type} (body : Cell → σ → σ) (i : ℕ) (s : σ) : σ :=
  loop (inner p) (fun j s => loop (inner p) (fun k s => body (i, j, k) s) s) s

/-- One turn of the iteration loop, and the `eps` it computes. -/
def iteration (state : Arrays V × V) : Arrays V × V :=
  let (arrays, eps) := loop (inner p) (plane p (updateA p)) (state.1, p.zero)
  (loop (inner p) (plane p (updateB p)) arrays, eps)

/-- The iteration loop: the number of its turns, and what it leaves. -/
def main (state : Arrays V × V) : ℕ × (Arrays V × V) :=
  repeatUntil (fun state => state.2 < p.maxeps) (iteration p) p.itmax state

end Sequential

/-! ## Memory and actions of the parallel program -/

/-- What the ULTs work on: the arrays, the local variables of every ULT, `eps_values`, and the
`eps` of `main`. -/
inductive Location where
  | a (cell : Cell)
  | b (cell : Cell)
  | tmp (thread : ℕ)
  | localEps (thread : ℕ)
  | epsValue (thread : ℕ)
  | eps
  deriving DecidableEq

abbrev Memory (V : Type) := Location → V

def arrays {V : Type} (m : Memory V) : Arrays V :=
  ⟨fun cell => m (.a cell), fun cell => m (.b cell)⟩

/-- The assignments of the ULTs, and the reduction. -/
inductive Action where
  | clearLocalEps (thread : ℕ)
  | setTmp (thread : ℕ) (cell : Cell)
  | raiseLocalEps (thread : ℕ)
  | copyA (cell : Cell)
  | storeEps (thread : ℕ)
  | updateB (cell : Cell)
  | reduceMax

/-- The location an action writes. -/
def Action.target : Action → Location
  | .clearLocalEps thread | .raiseLocalEps thread => .localEps thread
  | .setTmp thread _ => .tmp thread
  | .copyA cell => .a cell
  | .storeEps thread => .epsValue thread
  | .updateB cell => .b cell
  | .reduceMax => .eps

/-- The locations an action reads. -/
def Action.reads : Action → Set Location
  | .clearLocalEps _ => ∅
  | .setTmp _ cell => {.a cell, .b cell}
  | .raiseLocalEps thread => {.tmp thread, .localEps thread}
  | .copyA cell => {.b cell}
  | .storeEps thread => {.localEps thread}
  | .updateB (i, j, k) =>
      {.a (i - 1, j, k), .a (i, j - 1, k), .a (i, j, k - 1), .a (i, j, k + 1), .a (i, j + 1, k),
        .a (i + 1, j, k)}
  | .reduceMax => Set.range .epsValue

section Parallel

variable {V : Type} [LinearOrder V] (p : Jacobi3d V) {Pool : Type u}
  (context : ReductionContext Pool)

/-- What `reduce_max_float` leaves in its result for an array with one element for each
ULT. -/
def reduceMaxFloat (values : ℕ → V) : V :=
  Tree.treeValue context reduceMaxFloatFunc values context.numThreads p.fltMin

/-- The value an action writes. -/
def Action.value (m : Memory V) : Action → V
  | .clearLocalEps _ => p.zero
  | .setTmp _ cell => p.fabs (p.sub (m (.b cell)) (m (.a cell)))
  | .raiseLocalEps thread => maxOf (m (.tmp thread)) (m (.localEps thread))
  | .copyA cell => m (.b cell)
  | .storeEps thread => m (.localEps thread)
  | .updateB cell => average p (fun cell => m (.a cell)) cell
  | .reduceMax => reduceMaxFloat p context fun thread => m (.epsValue thread)

/-- One atomic step. -/
def exec (action : Action) (m : Memory V) : Memory V :=
  Function.update m action.target (action.value p context m)

/-! ## The ULTs -/

/-- The planes from `start_i` up to `end_i` of a ULT. -/
def planes (thread : ℕ) : List ℕ :=
  let rowsPerThread := (p.l - 2) / context.numThreads
  let startI := 1 + thread * rowsPerThread
  span startI (if thread = context.numThreads - 1 then p.l - 1 else startI + rowsPerThread)

/-- The actions of the loops over `j` and `k`. -/
def planeActions (body : Cell → List Action) (i : ℕ) : List Action :=
  (inner p).flatMap fun j => (inner p).flatMap fun k => body (i, j, k)

/-- `update_A_thread` -/
def updateAThread (thread : ℕ) : List Action :=
  [.clearLocalEps thread] ++
    (planes p context thread).flatMap
      (planeActions p fun cell => [.setTmp thread cell, .raiseLocalEps thread, .copyA cell]) ++
    [.storeEps thread]

/-- `update_B_thread` -/
def updateBThread (thread : ℕ) : List Action :=
  (planes p context thread).flatMap (planeActions p fun cell => [.updateB cell])

/-! ## The main ULT -/

variable {Lane : Type} (lane : ℕ → Lane)

/-- A loop over the ULTs that creates each of them in its pool. -/
def createThreads (threadFunc : ℕ → List Action) : List (Instr (Pool × Lane) ℕ Action) :=
  (List.range context.numThreads).map fun thread =>
    .fork (context.pools ⟨thread % context.numPools, context.mod_numPools_lt thread⟩, lane thread)
      thread (threadFunc thread)

/-- The loop that joins and frees the ULTs in `reduction_context.threads`. -/
def joinThreads : List (Instr (Pool × Lane) ℕ Action) :=
  (List.range context.numThreads).map .join

/-- One turn of the iteration loop. -/
def iterationCode : List (Instr (Pool × Lane) ℕ Action) :=
  createThreads context lane (updateAThread p context) ++ joinThreads context ++
    [.act .reduceMax] ++
    createThreads context lane (updateBThread p context) ++ joinThreads context

/-- The states the parallel program can reach: it leaves the iteration loop when `eps` is below
`MAXEPS`. -/
abbrev Reaches (m : Memory V) (s : Repeating (Pool × Lane) ℕ Action (Memory V)) : Prop :=
  RepeatSteps (exec p context) .free (iterationCode p context lane) p.itmax
    (fun m => m .eps < p.maxeps) (.start m) s

end Parallel

end ArgobotsReduction.Jacobi
