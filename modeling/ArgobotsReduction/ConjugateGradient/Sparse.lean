import Mathlib.Data.Fin.Basic
import ArgobotsReduction.Containers.Loops
import ArgobotsReduction.Parallel.Interleaving

/-!
# `makea` and `sparse`

The matrix assembly of the CG benchmark.  The ULTs share the generated row
lists and the arrays the matrix is built in, and run the same code: one loop
nest after the other, with `ABT_barrier_wait` between some of them.  One loop
nest, with the straight-line statements around it, is one action.

`exit` ends the process: after it no action has an effect.

The arrays `arow`, `acol` and `aelt` are one array of row lists here, and the
array `nzloc`, which is the tail of `iv` from position `nz` on, is an array of
its own.
-/

set_option autoImplicit false

namespace ArgobotsReduction.ConjugateGradient.Sparse

open Containers Parallel

/-- What `makea` works with.  Row `i` of the generated lists pairs `acol[i][·]`
with `aelt[i][·]`, and its length is `arow[i]`; `ratio` is `pow(rcond, 1.0 / n)`. -/
structure Problem (R : Type) where
  n : ℕ
  nonzer : ℕ
  maxThreads : ℕ
  row : ℕ → List (ℕ × R)
  row_length : ∀ i, (row i).length ≤ nonzer + 1
  rcond : R
  shift : R
  ratio : R

/-- The declared size `NZ` of `a`, `colidx` and `v`. -/
def Problem.nz {R : Type} (p : Problem R) : ℕ := p.n * (p.nonzer + 1) * (p.nonzer + 1)

/-- The workspace of `sparse` in which the rows are summed up. -/
structure Work (R : Type) where
  v : ℤ → R
  iv : ℤ → ℤ
  nzloc : ℕ → ℤ

/-- What the ULTs share, the local variable `nzrow` of every ULT, and whether
the process has ended. -/
structure Memory (R : Type) extends Work R where
  triples : ℕ → List (ℕ × R)
  rowstr : ℕ → ℤ
  lastN : ℕ → ℤ
  a : ℤ → R
  colidx : ℤ → ℤ
  nzrow : ℕ → ℤ
  exited : Bool

/-- What the assembly is for. -/
structure Assembled (R : Type) where
  a : ℤ → R
  colidx : ℤ → ℤ
  rowstr : ℕ → ℤ

def Memory.assembled {R : Type} (m : Memory R) : Assembled R := ⟨m.a, m.colidx, m.rowstr⟩

/-! ## The rows of a ULT -/

section Bounds

variable {R : Type} (p : Problem R) (numThreads thread : ℕ)

def work : ℕ := (p.n + numThreads - 1) / numThreads

def ilow : ℕ := work p numThreads * thread

def ihigh : ℕ := min (ilow p numThreads thread + work p numThreads) p.n

def nrowsPerThread : ℕ := p.n / numThreads

/-- The first row of the copy loop. -/
def jStart : ℕ := thread * nrowsPerThread p numThreads

/-- The row after the last one of the copy loop. -/
def jStop : ℕ :=
  if thread + 1 = numThreads then p.n else jStart p numThreads thread + nrowsPerThread p numThreads

end Bounds

/-! ## One element summed into a row -/

section Rows

variable {R : Type}

/-- One turn of the loop on `kk`. -/
def moveRight (kk : ℤ) (w : Work R) : Work R :=
  if w.iv kk > -1 then
    { w with
      v := Function.update w.v (kk + 1) (w.v kk)
      iv := Function.update w.iv (kk + 1) (w.iv kk) }
  else w

/-- The loop on `kk`, downwards, that frees position `k` of a row that ends
before `stop`. -/
def makeRoom (k stop : ℤ) (w : Work R) : Work R :=
  loop (upto k (stop - 1)).reverse moveRight w

/-- The position at which the loop on `k` breaks off. -/
def slot (first stop : ℤ) (jcol : ℕ) (iv : ℤ → ℤ) : Option ℤ :=
  (upto first stop).find? fun k => decide (iv k > jcol ∨ iv k = -1 ∨ iv k = jcol)

/-- What the loop on `k` does to row `j` at the position where it breaks off, and
the addition of `va` behind it. -/
def addAt [Zero R] [Add R] (j : ℕ) (stop : ℤ) (jcol : ℕ) (va : R) (k : ℤ) (w : Work R) : Work R :=
  let w :=
    if w.iv k > jcol then
      let w := makeRoom k stop w
      { w with iv := Function.update w.iv k jcol, v := Function.update w.v k 0 }
    else if w.iv k = -1 then { w with iv := Function.update w.iv k jcol }
    else { w with nzloc := Function.update w.nzloc j (w.nzloc j + 1) }
  { w with v := Function.update w.v k (w.v k + va) }

/-- The loop on `k`: `va` is added to the element of row `j` in column `jcol`.
The row lies in the positions from `first` up to `stop`.  There is no result when
the loop ends without a `break`. -/
def addElement [Zero R] [Add R] (j : ℕ) (first stop : ℤ) (jcol : ℕ) (va : R) (w : Work R) :
    Option (Work R) :=
  (slot first stop jcol w.iv).map fun k => addAt j stop jcol va k w

end Rows

/-! ## The loop nests -/

/-- The loop nests of `makea` and `sparse`, in their order. -/
inductive Nest where
  | generate
  | clearCounts
  | countTriples
  | sumCounts
  | sumLast
  | offsetRows
  | preload
  | fillRows
  | sumDuplicates
  | offsetDuplicates
  | copy
  | shift
  deriving DecidableEq, Repr

section Nests

variable {R : Type} (p : Problem R) (numThreads thread : ℕ)

/-- The loop of `makea` that stores the generated rows of the ULT. -/
def generate (m : Memory R) : Memory R :=
  if p.maxThreads < numThreads then { m with exited := true }
  else
    { m with
      triples := loop (span (ilow p numThreads thread) (ihigh p numThreads thread))
        (fun i triples => Function.update triples i (p.row i)) m.triples }

/-- `for (j = j1; j < j2; j++) rowstr[j] = 0;` -/
def clearCounts (m : Memory R) : Memory R :=
  { m with
    rowstr := loop (span (ilow p numThreads thread + 1) (ihigh p numThreads thread + 1))
      (fun j rowstr => Function.update rowstr j 0) m.rowstr }

/-- The count of the triples in each row. -/
def countTriples (m : Memory R) : Memory R :=
  { m with
    rowstr := loop (List.range p.n)
      (fun i rowstr => loop (m.triples i)
        (fun triple rowstr =>
          if ilow p numThreads thread ≤ triple.1 ∧ triple.1 < ihigh p numThreads thread then
            Function.update rowstr (triple.1 + 1)
              (rowstr (triple.1 + 1) + (m.triples i).length)
          else rowstr) rowstr) m.rowstr }

/-- The first row boundary the ULT sums and offsets: `j1` after the test of
`thread_id == 0`. -/
def firstBoundary : ℕ := if thread = 0 then 0 else ilow p numThreads thread + 1

/-- The running sums of the counts, and `last_n[thread_id] = rowstr[j2-1]`. -/
def sumCounts (m : Memory R) : Memory R :=
  let cleared := if thread = 0 then Function.update m.rowstr 0 0 else m.rowstr
  let rowstr := loop (span (firstBoundary p numThreads thread + 1) (ihigh p numThreads thread + 1))
    (fun j rowstr => Function.update rowstr j (rowstr j + rowstr (j - 1))) cleared
  { m with
    rowstr := rowstr
    lastN := Function.update m.lastN thread (rowstr (ihigh p numThreads thread)) }

/-- The sum of `last_n` over the ULTs before. -/
def sumLast (m : Memory R) : Memory R :=
  { m with
    nzrow := Function.update m.nzrow thread
      (loop (List.range thread) (fun i nzrow => nzrow + m.lastN i) 0) }

def offsetRows (m : Memory R) : Memory R :=
  if m.nzrow thread > 0 then
    { m with
      rowstr := loop
        (span (firstBoundary p numThreads thread) (ihigh p numThreads thread + 1))
        (fun j rowstr => Function.update rowstr j (rowstr j + m.nzrow thread)) m.rowstr }
  else m

/-- One turn of the preload loop, for the row in the positions from `first` up to
`stop`. -/
def preloadRow [Zero R] (first stop : ℤ) (j : ℕ) (w : Work R) : Work R :=
  let w := loop (upto first stop)
    (fun k w => { w with v := Function.update w.v k 0, iv := Function.update w.iv k (-1) }) w
  { w with nzloc := Function.update w.nzloc j 0 }

/-- The check of the space for the elements, and the loop that preloads the data
pages. -/
def preload [Zero R] (m : Memory R) : Memory R :=
  if m.rowstr p.n - 1 > p.nz then { m with exited := true }
  else
    { m with
      toWork := loop (span (ilow p numThreads thread) (ihigh p numThreads thread))
        (fun j w => preloadRow (m.rowstr j) (m.rowstr (j + 1)) j w) m.toWork }

section Values

variable [Zero R] [One R] [Add R] [Sub R] [Mul R]

/-- `va` in row `j` for the element `aelt` in column `jcol` of generated row `i`. -/
def elementValue (i j jcol : ℕ) (aelt scale : R) : R :=
  let va := aelt * scale
  if jcol = j ∧ j = i then va + p.rcond - p.shift else va

/-- The generation of the values, with the accumulator `size`.  There is no
result when a row has no place for an element. -/
def fillLoop (m : Memory R) : Option (R × Work R) :=
  (List.range p.n).foldlM
    (fun (size, w) i =>
      ((m.triples i).foldlM
        (fun w nza =>
          if nza.1 < ilow p numThreads thread ∨ nza.1 ≥ ihigh p numThreads thread then some w
          else
            let scale := size * nza.2
            (m.triples i).foldlM
              (fun w nzrow =>
                addElement nza.1 (m.rowstr nza.1) (m.rowstr (nza.1 + 1)) nzrow.1
                  (elementValue p i nza.1 nzrow.1 nzrow.2 scale) w) w) w).map
        fun w => (size * p.ratio, w))
    (1, m.toWork)

def fillRows (m : Memory R) : Memory R :=
  match fillLoop p numThreads thread m with
  | none => { m with exited := true }
  | some (_, w) => { m with toWork := w }

end Values

/-- The running sums of the duplicates, and `last_n[thread_id] = nzloc[ihigh-1]`. -/
def sumDuplicates (m : Memory R) : Memory R :=
  let nzloc := loop (span (ilow p numThreads thread + 1) (ihigh p numThreads thread))
    (fun j nzloc => Function.update nzloc j (nzloc j + nzloc (j - 1))) m.nzloc
  { m with
    nzloc := nzloc
    lastN := Function.update m.lastN thread (nzloc (ihigh p numThreads thread - 1)) }

def offsetDuplicates (m : Memory R) : Memory R :=
  if m.nzrow thread > 0 then
    { m with
      nzloc := loop (span (ilow p numThreads thread) (ihigh p numThreads thread))
        (fun j nzloc => Function.update nzloc j (nzloc j + m.nzrow thread)) m.nzloc }
  else m

/-- The loop that removes the empty positions of the rows: `a[k]` and `colidx[k]`
are copied from position `nza`, which runs along with `k`. -/
def copy (m : Memory R) : Memory R :=
  let copied := loop (span (jStart p numThreads thread) (jStop p numThreads thread))
    (fun j arrays =>
      let j1 := if j > 0 then m.rowstr j - m.nzloc (j - 1) else 0
      let j2 := m.rowstr (j + 1) - m.nzloc j
      loop (upto j1 j2)
        (fun k arrays =>
          let nza := m.rowstr j + (k - j1)
          (Function.update arrays.1 k (m.v nza), Function.update arrays.2 k (m.iv nza))) arrays)
    (m.a, m.colidx)
  { m with a := copied.1, colidx := copied.2 }

/-- The last row boundary of the shift loop. -/
def shiftStop : ℕ :=
  if thread + 1 = numThreads then p.n + 1
  else 1 + thread * nrowsPerThread p numThreads + nrowsPerThread p numThreads

/-- The loop that moves the row pointers to the compacted rows. -/
def shift (m : Memory R) : Memory R :=
  { m with
    rowstr := loop (span (1 + thread * nrowsPerThread p numThreads) (shiftStop p numThreads thread))
      (fun j rowstr => Function.update rowstr j (rowstr j - m.nzloc (j - 1))) m.rowstr }

end Nests

/-! ## The code of a ULT -/

/-- One loop nest of one ULT. -/
structure Action (numThreads : ℕ) where
  thread : Fin numThreads
  nest : Nest
  deriving DecidableEq, Repr

section Code

variable {R : Type} [Zero R] [One R] [Add R] [Sub R] [Mul R] (p : Problem R) {numThreads : ℕ}

def Nest.run (numThreads thread : ℕ) : Nest → Memory R → Memory R
  | .generate => Sparse.generate p numThreads thread
  | .clearCounts => Sparse.clearCounts p numThreads thread
  | .countTriples => Sparse.countTriples p numThreads thread
  | .sumCounts => Sparse.sumCounts p numThreads thread
  | .sumLast => Sparse.sumLast thread
  | .offsetRows => Sparse.offsetRows p numThreads thread
  | .preload => Sparse.preload p numThreads thread
  | .fillRows => Sparse.fillRows p numThreads thread
  | .sumDuplicates => Sparse.sumDuplicates p numThreads thread
  | .offsetDuplicates => Sparse.offsetDuplicates p numThreads thread
  | .copy => Sparse.copy p numThreads thread
  | .shift => Sparse.shift p numThreads thread

def exec (action : Action numThreads) (m : Memory R) : Memory R :=
  if m.exited then m else action.nest.run p numThreads action.thread m

end Code

/-- `makea` and the call of `sparse` at its end. -/
def makea (numThreads : ℕ) (thread : Fin numThreads) : Code (Action numThreads) :=
  let run := fun nest => Instr.act (Action.mk thread nest)
  [run .generate, .wait, run .clearCounts, run .countTriples, run .sumCounts, .wait,
    run .sumLast, run .offsetRows, .wait, run .preload, run .fillRows, .wait,
    run .sumDuplicates, .wait, run .sumLast, run .offsetDuplicates, .wait, run .copy, run .shift]

end ArgobotsReduction.ConjugateGradient.Sparse
