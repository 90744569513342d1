import Farlock.Lib.Transition
import Farlock.Lib.Peterson
import Farlock.Lib.Rendezvous
import Farlock.Lib.Mcs
import Farlock.Lib.FreeList
import Farlock.Lib.Handover
import Farlock.Lib.Cohort
import Farlock.Lib.Fair
import Farlock.Lib.Congruential
import Farlock.Event
import Farlock.Spec.State
import Farlock.Spec.Invariant
import Farlock.Spec.Preserve
import Farlock.Spec.Exclusion
import Farlock.Spec.History
import Farlock.Spec.Batches
import Farlock.Spec.Progress
import Farlock.Spec.Bypass
import Farlock.Spec.Lines
import Farlock.Cluster
import Farlock.Refine
import Farlock.Simulation
import Farlock.Trace
import Farlock.Traces
import Farlock.Algorithm
import Farlock.FARLock.Model
import Farlock.FARLock.Refinement
import Farlock.FARLock.Steps
import Farlock.FARLock.Safety
import Farlock.FARLock.Progress
import Farlock.FARLock.Traces
import Farlock.FARLock.Descriptors
import Farlock.FARLockG.Model
import Farlock.FARLockG.Refinement
import Farlock.FARLockG.Steps
import Farlock.FARLockG.Safety
import Farlock.FARLockG.Progress
import Farlock.FARLockG.Traces
import Farlock.Equivalence
import Farlock.FARLockG.Batches
import Farlock.FARLockG.Descriptors
import Farlock.FARLock.Liveness
import Farlock.FARLockG.Liveness
import Farlock.Tails
import Farlock.Quiescence
import Farlock.TicketLock
import Farlock.TicketLock.Liveness
import Farlock.Memory.ChunkSize
import Farlock.Memory.Region
import Farlock.Memory.Pointer
import Farlock.Memory.LockTable
import Farlock.Memory.Packing
import Farlock.Memory.Pool
import Farlock.Memory.Exchange
import Farlock.Memory.Exchange.Queue
import Farlock.Memory.Exchange.Progress
import Farlock.Benchmark.Exchange
import Farlock.Benchmark.Result
import Farlock.Benchmark.Random
import Farlock.Benchmark.Tally
import Farlock.Benchmark.Reservoir
import Farlock.Benchmark.Queries
import Farlock.Benchmark.Variance
import Farlock.Benchmark.Worker
import Farlock.Bootstrap.QueuePair
import Farlock.Bootstrap.Model
import Farlock.Bootstrap.Wiring
import Farlock.Bootstrap.Steps
import Farlock.Bootstrap.Pools
import Farlock.Bootstrap.Ports
import Farlock.ThirdParty.Machine
import Farlock.ThirdParty.RdmaMcsLock.Model
import Farlock.ThirdParty.RdmaMcsLock.Safety
import Farlock.ThirdParty.RdmaMcsLock.Liveness
import Farlock.ThirdParty.RdmaSpinLock
import Farlock.ThirdParty.ALock.Model
import Farlock.ThirdParty.ALock.Safety
import Farlock.ThirdParty.ALock.Liveness
import Farlock.Benchmark.Session
