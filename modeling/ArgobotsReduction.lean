import ArgobotsReduction.Parallel.Interleaving
import ArgobotsReduction.Parallel.Rounds
import ArgobotsReduction.Parallel.Footprint
import ArgobotsReduction.Parallel.Outline
import ArgobotsReduction.Parallel.Tiling
import ArgobotsReduction.Parallel.TreeFold
import ArgobotsReduction.Parallel.Machine
import ArgobotsReduction.Parallel.Larger
import ArgobotsReduction.Parallel.Arrivals
import ArgobotsReduction.Parallel.Lifetimes
import ArgobotsReduction.Reduction.Common
import ArgobotsReduction.Reduction.Tree
import ArgobotsReduction.Reduction.Mutex
import ArgobotsReduction.Reduction.Operations
import ArgobotsReduction.Reduction.Extremum
import ArgobotsReduction.Reduction.Logical
import ArgobotsReduction.Containers.RingBuffer
import ArgobotsReduction.Containers.Loops
import ArgobotsReduction.Scheduling.CostAware
import ArgobotsReduction.Scheduling.TaskEstimates
import ArgobotsReduction.Containers.Ledger
import ArgobotsReduction.Containers.LinkedChain
import ArgobotsReduction.Containers.TwoWay
import ArgobotsReduction.Containers.AllocatedSlots
import ArgobotsReduction.Streams.StreamList
import ArgobotsReduction.Streams.Affinity
import ArgobotsReduction.Streams.AffinityParser
import ArgobotsReduction.Streams.StreamListRuns
import ArgobotsReduction.Scheduling.WorkStealing
import ArgobotsReduction.Threads.UnitMap
import ArgobotsReduction.Threads.UnitMapRuns
import ArgobotsReduction.Threads.Ythread
import ArgobotsReduction.Threads.Shape
import ArgobotsReduction.Threads.NumBlocked
import ArgobotsReduction.Threads.NumBlockedRuns
import ArgobotsReduction.Threads.Migration
import ArgobotsReduction.Threads.KeyTable
import ArgobotsReduction.Threads.KeyTableRuns
import ArgobotsReduction.Memory.MemPool
import ArgobotsReduction.Memory.PartialBucket
import ArgobotsReduction.Memory.TakeBucket
import ArgobotsReduction.Memory.MemPoolRuns
import ArgobotsReduction.ConjugateGradient.Sparse
import ArgobotsReduction.ConjugateGradient.SparseRows
import ArgobotsReduction.ConjugateGradient.SparseNests
import ArgobotsReduction.ConjugateGradient.Assembly
import ArgobotsReduction.Scheduling.MainSched
import ArgobotsReduction.Scheduling.MainSchedRuns
import ArgobotsReduction.Threads.Join
import ArgobotsReduction.Sync.Waitlist
import ArgobotsReduction.Sync.WaitlistRuns
import ArgobotsReduction.Sync.Barrier
import ArgobotsReduction.Sync.XstreamBarrier
import ArgobotsReduction.Sync.StackDump
import ArgobotsReduction.Sync.StackDumpRuns
import ArgobotsReduction.Sync.Mutex
import ArgobotsReduction.Sync.Rwlock
import ArgobotsReduction.Sync.Future
import ArgobotsReduction.Containers.Circle
import ArgobotsReduction.Scheduling.ThreadQueue
import ArgobotsReduction.Scheduling.ThreadQueueRuns
import ArgobotsReduction.Parallel.ForkJoin
import ArgobotsReduction.Parallel.ForkJoinRuns
import ArgobotsReduction.ConjugateGradient.Solver
import ArgobotsReduction.Parallel.SlicedLoop
import ArgobotsReduction.ConjugateGradient.SolverPhases
import ArgobotsReduction.ConjugateGradient.SolverValues
import ArgobotsReduction.ConjugateGradient.SolverRuns
import ArgobotsReduction.Krylov.ConjugateGradients
import ArgobotsReduction.ConjugateGradient.Method
import ArgobotsReduction.ConjugateGradient.Residual
import ArgobotsReduction.ConjugateGradient.Leaks
import ArgobotsReduction.Grammars.Numerals
import ArgobotsReduction.Utilities.Atoi
import ArgobotsReduction.Threads.MigrationTarget
import ArgobotsReduction.Containers.FirstSeen
import ArgobotsReduction.Streams.ThreadStacks
import ArgobotsReduction.Containers.Associations
import ArgobotsReduction.Utilities.Hashtable
import ArgobotsReduction.Sync.Futex
import ArgobotsReduction.Sync.Cond
import ArgobotsReduction.Containers.Carving
import ArgobotsReduction.Threads.KeyValues
import ArgobotsReduction.Threads.KeyValuesRuns
import ArgobotsReduction.Parallel.LargestLoop
import ArgobotsReduction.Parallel.Repeated
import ArgobotsReduction.Jacobi.Jacobi3d
import ArgobotsReduction.Jacobi.Jacobi3dPhases
import ArgobotsReduction.Jacobi.Jacobi3dRuns
import ArgobotsReduction.ConjugateGradient.RowSums
import ArgobotsReduction.ConjugateGradient.OuterProducts
import ArgobotsReduction.Containers.Stack
import ArgobotsReduction.Parallel.Linearization
import ArgobotsReduction.Sync.Lifo
import ArgobotsReduction.Memory.LocalPool
import ArgobotsReduction.Memory.LocalPoolRuns
import ArgobotsReduction.Containers.Objects
import ArgobotsReduction.Scheduling.SchedCreate
import ArgobotsReduction.Scheduling.SchedCreateRuns
import ArgobotsReduction.Streams.StreamCreate
import ArgobotsReduction.Streams.StreamCreateRuns
import ArgobotsReduction.Memory.EnvInit
import ArgobotsReduction.Memory.EnvInitFacts
import ArgobotsReduction.Containers.Calculations
import ArgobotsReduction.Streams.AffinityNumbers
import ArgobotsReduction.Streams.AffinityExact
import ArgobotsReduction.Streams.AffinityWrapping
import ArgobotsReduction.Parallel.Inevitable
import ArgobotsReduction.Threads.ToolEvents
import ArgobotsReduction.Streams.NativeThread
import ArgobotsReduction.Numerics.Floats
import ArgobotsReduction.ConjugateGradient.Generator
import ArgobotsReduction.ConjugateGradient.GeneratorPeriod
import ArgobotsReduction.ConjugateGradient.GeneratedRows
import ArgobotsReduction.Parallel.Conversations
import ArgobotsReduction.Scheduling.BuiltinScheds
import ArgobotsReduction.Scheduling.SchedConfig
