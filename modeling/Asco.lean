import Asco.Concurrency.HashMap
import Asco.Concurrency.HashMap.Accounting
import Asco.Concurrency.HashMap.Alternation
import Asco.Concurrency.HashMap.Claims
import Asco.Concurrency.HashMap.Coherence
import Asco.Concurrency.HashMap.Exhaustion
import Asco.Concurrency.HashMap.Locks
import Asco.Concurrency.HashMap.Paths
import Asco.Concurrency.HashMap.Probing
import Asco.Concurrency.HashMap.Protection
import Asco.Concurrency.HashMap.Refinement
import Asco.Concurrency.HashMap.Search
import Asco.Concurrency.HashMap.Sequential
import Asco.Concurrency.HashMap.Uniqueness
import Asco.Concurrency.RingQueue
import Asco.Concurrency.RingQueue.Conservation
import Asco.Concurrency.RingQueue.Fifo
import Asco.Concurrency.RingQueue.Ownership
import Asco.Concurrency.RingQueue.Sequential
import Asco.Core.Daemon
import Asco.Core.Daemon.Join
import Asco.Core.Daemon.Lifecycle
import Asco.Core.Mm.CoroutinePool
import Asco.Core.Mm.CoroutinePool.Accounts
import Asco.Core.Mm.CoroutinePool.Growth
import Asco.Core.Mm.CoroutinePool.Reclaim
import Asco.Core.Mm.CoroutinePool.Storage
import Asco.Core.Os.Io
import Asco.Core.Os.IoUring
import Asco.Core.Os.IoUring.Routing
import Asco.Core.Runtime
import Asco.Core.Runtime.BackPressure
import Asco.Core.Runtime.Sleep
import Asco.Core.Task.Agreement
import Asco.Core.Task.CycleScheduler
import Asco.Core.Task.CycleScheduler.Refinement
import Asco.Core.Task.DynprioScheduler
import Asco.Core.Task.DynprioScheduler.Forgetting
import Asco.Core.Task.DynprioScheduler.Members
import Asco.Core.Task.DynprioScheduler.Placement
import Asco.Core.Task.DynprioScheduler.Refinement
import Asco.Core.Task.ExecutionDomain
import Asco.Core.Task.ExecutionDomainProxy
import Asco.Core.Task.Executor.Frames
import Asco.Core.Task.Executor.Steps
import Asco.Core.Task.Suspension
import Asco.Core.Time.HighResolutionTimer
import Asco.Core.Time.HighResolutionTimer.Collision
import Asco.Core.Time.HighResolutionTimer.Deadline
import Asco.Core.Time.HighResolutionTimer.Firing
import Asco.Core.Worker
import Asco.Core.Worker.Completion
import Asco.Core.Worker.Location
import Asco.Core.Worker.Nested
import Asco.Core.Worker.Nested.ParentAwake
import Asco.Core.Worker.Nested.Propagation
import Asco.Core.Worker.Nested.Stack
import Asco.Core.Worker.OneShot
import Asco.Core.Worker.RunOnce.Accounts
import Asco.Core.Worker.RunOnce.Executions
import Asco.Core.Worker.RunOnce.NestDepth
import Asco.Core.Worker.Store.Addresses
import Asco.Core.Worker.Store.Callbacks
import Asco.Core.Worker.Tree
import Asco.Core.Worker.Tree.Agreement
import Asco.Core.Worker.Tree.Cancellation.Reach
import Asco.Core.Worker.Tree.Coherence
import Asco.Core.Worker.Tree.Effects
import Asco.Core.Worker.Tree.Steps
import Asco.Core.Worker.Tree.WakeUp
import Asco.Foundation.CyclicSegment
import Asco.Foundation.Machine
import Asco.Foundation.PackedWord
import Asco.Future.Storage
import Asco.Io.Buffer.Refinement
import Asco.Io.Buffer.Reserve
import Asco.Io.File.Position
import Asco.JoinHandle
import Asco.JoinHandle.Awaiting
import Asco.JoinHandle.Publication
import Asco.JoinHandle.Surplus
import Asco.Sync.Channel
import Asco.Sync.Channel.Atomic
import Asco.Sync.Channel.Drain
import Asco.Sync.Channel.Fifo
import Asco.Sync.Channel.Open
import Asco.Sync.Channel.Stop
import Asco.Sync.ConditionVariable
import Asco.Sync.ConditionVariable.Wait
import Asco.Sync.Mutex
import Asco.Sync.RwLock
import Asco.Sync.RwLock.Exclusion
import Asco.Sync.RwLock.Ledger
import Asco.Sync.RwLock.Preference
import Asco.Sync.RwLock.Refinement
import Asco.Sync.RwLock.Typed
import Asco.Sync.RwLock.WakeUp
import Asco.Sync.Semaphore
import Asco.Sync.Semaphore.Cancellation
import Asco.Sync.Semaphore.Cleanup
import Asco.Sync.Semaphore.Ledger
import Asco.Sync.SpinLock
import Asco.Sync.SpinLock.Serial
import Asco.Sync.SpinRwLock
import Asco.Sync.SpinRwLock.Guards
import Asco.Task.JoinAll
import Asco.Task.JoinSet
import Asco.Task.JoinSet.Collects
import Asco.Task.Select
import Asco.Task.Select.Winner
import Asco.ThisTask.Context
import Asco.Util.SafeErased
import Asco.Util.SafeErased.Owned
