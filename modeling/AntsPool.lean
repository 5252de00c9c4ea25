import AntsPool.ListTotals
import AntsPool.Interleaving
import AntsPool.Bisection
import AntsPool.BoundedFifo
import AntsPool.CyclicSlots
import AntsPool.Errors
import AntsPool.LoopQueue
import AntsPool.WorkerQueue
import AntsPool.Cond
import AntsPool.PoolState
import AntsPool.PoolThreads
import AntsPool.PoolRuns
import AntsPool.Accounts
import AntsPool.Capacity
import AntsPool.HandOff
import AntsPool.ClosedQueue
import AntsPool.Lifecycle
import AntsPool.Barrier
import AntsPool.Latch
import AntsPool.Notification
import AntsPool.Wakeup
import AntsPool.Closing
import AntsPool.LastUsed
import AntsPool.Preallocated
import AntsPool.Builds
import AntsPool.SoloRuns
import AntsPool.LargeRings
import AntsPool.Background
import AntsPool.CondClients
import AntsPool.CondUnits
import AntsPool.CondNotices
import AntsPool.Facade
import AntsPool.MultiPool
import AntsPool.MultiPoolSteps
import AntsPool.MultiAgreement
import AntsPool.Dispatch
import AntsPool.LeastScan
import AntsPool.Load
import AntsPool.StampOrder
import AntsPool.Eviction
import AntsPool.CheckedI32
import AntsPool.SearchRange
import AntsPool.Delivery
import AntsPool.DispatchRefines
import AntsPool.Rotation
import AntsPool.RoundRobin
import AntsPool.Aggregates
import AntsPool.Epilogue
import AntsPool.SpawnFailure
import AntsPool.Shrinking
import AntsPool.Idleness
import AntsPool.FreeWorkers
import AntsPool.StackSearch
import AntsPool.Budgets
import AntsPool.Progress
import AntsPool.Draining
import AntsPool.Channels
import AntsPool.Executor
import AntsPool.Execution
import AntsPool.Unblocked
import AntsPool.Handles
import AntsPool.Epochs
import AntsPool.Completion
import AntsPool.CondRefines
import AntsPool.CondRest
import AntsPool.ContextResults
import AntsPool.PoolsDraining
import AntsPool.SpinLock
import AntsPool.MultiExecution
