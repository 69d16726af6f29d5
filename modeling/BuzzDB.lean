import BuzzDB.Lib.Image
import BuzzDB.Lib.StdSet
import BuzzDB.Lib.SetMap
import BuzzDB.Lib.Machine
import BuzzDB.Lib.Cache
import BuzzDB.Lib.Paths
import BuzzDB.Lib.UndoRedo
import BuzzDB.Lib.KWayMerge
import BuzzDB.Lib.Tally
import BuzzDB.Lib.GrowingVectors
import BuzzDB.Lib.TwoPhase
import BuzzDB.Lib.Enumeration
import BuzzDB.Lib.Tabulation
import BuzzDB.Lib.Rounding
import BuzzDB.Lib.Binary64
import BuzzDB.Storage.PosixFile
import BuzzDB.Storage.FileLength
import BuzzDB.Storage.Segment
import BuzzDB.Storage.SlottedPage
import BuzzDB.Storage.PageBytes
import BuzzDB.ExternalSort.ExternalSort
import BuzzDB.ExternalSort.Chunks
import BuzzDB.ExternalSort.Merge
import BuzzDB.ExternalSort.Memory
import BuzzDB.Optimizer.JoinNode
import BuzzDB.Optimizer.OrderJoins
import BuzzDB.Optimizer.JoinOrder
import BuzzDB.Optimizer.Meaning
import BuzzDB.Optimizer.LeftDeep
import BuzzDB.Optimizer.CheapestPlans
import BuzzDB.Optimizer.ImprovingJoins
import BuzzDB.Optimizer.IntHistogram
import BuzzDB.Optimizer.BoundaryEstimates
import BuzzDB.Optimizer.HistogramCounts
import BuzzDB.Optimizer.EqualityEstimates
import BuzzDB.Optimizer.MonotoneEstimates
import BuzzDB.Optimizer.TableEstimates
import BuzzDB.Optimizer.EstimateErrors
import BuzzDB.Optimizer.JoinCardinality
import BuzzDB.Optimizer.Subsets
import BuzzDB.Optimizer.PlanCosts
import BuzzDB.Recovery.BufferManager
import BuzzDB.Recovery.LogRecord
import BuzzDB.Recovery.LogManager
import BuzzDB.Recovery.Tape
import BuzzDB.Recovery.Decoding
import BuzzDB.Recovery.Replay
import BuzzDB.Recovery.Frames
import BuzzDB.Recovery.Restart
import BuzzDB.Recovery.History
import BuzzDB.Recovery.Discipline
import BuzzDB.Recovery.CrashRecovery
import BuzzDB.Recovery.SecondCrash
import BuzzDB.Recovery.DurableState
import BuzzDB.Recovery.TransactionManager
import BuzzDB.Recovery.AbortTxn
import BuzzDB.Recovery.LiveRollback
import BuzzDB.Recovery.TransactionIds
import BuzzDB.Recovery.TransactionRecords
import BuzzDB.Recovery.Checkpoints
import BuzzDB.Recovery.TransparentCache
import BuzzDB.Recovery.PoolCapacity
import BuzzDB.Recovery.FailedAppends
import BuzzDB.Recovery.WriteAhead
import BuzzDB.Locking.FrameLock
import BuzzDB.Locking.LockManager
import BuzzDB.Locking.Calls
import BuzzDB.Locking.Exclusion
import BuzzDB.Locking.Wakeups
import BuzzDB.Locking.WholeCalls
import BuzzDB.Locking.LockTables
import BuzzDB.Locking.WaitingGraph
import BuzzDB.Locking.Waiters
import BuzzDB.Locking.MissedDeadlocks
import BuzzDB.Locking.SpuriousDeadlocks
import BuzzDB.Locking.Consistency
import BuzzDB.Locking.LockVectors
import BuzzDB.Locking.LockQueries
import BuzzDB.Locking.BufferManager
import BuzzDB.Locking.Operations
import BuzzDB.Locking.CycleSearch
import BuzzDB.Locking.FrameTable
import BuzzDB.Locking.TransactionManager
import BuzzDB.Locking.RefusedRequests
import BuzzDB.Locking.Durability
import BuzzDB.Locking.Residency
import BuzzDB.Locking.Restores
import BuzzDB.Locking.Interleaving
import BuzzDB.Locking.Isolation
import BuzzDB.Locking.FixSections
import BuzzDB.Locking.DirtyReads
import BuzzDB.Locking.Serializability
import BuzzDB.Locking.Threads
import BuzzDB.Locking.UnloadedFrames
import BuzzDB.Locking.BlockedHolders
import BuzzDB.Locking.Progress
import BuzzDB.Locking.SharedPool
import BuzzDB.Heap.FramePool
import BuzzDB.Heap.HeapSegment
import BuzzDB.Heap.FreedSlots
import BuzzDB.Heap.Pages
import BuzzDB.Heap.Records
import BuzzDB.Heap.HeapManager
import BuzzDB.Recovery.HeapSystem
import BuzzDB.Locking.HeapSystem
import BuzzDB.Heap.RecordIsolation
import BuzzDB.Heap.SlotWords
import BuzzDB.Heap.Reopening
import BuzzDB.Heap.ReopenedRecords
import BuzzDB.Heap.FixedRecords
import BuzzDB.Locking.PageImages
import BuzzDB.Locking.Reloading
import BuzzDB.Locking.ReloadedRecords
import BuzzDB.Locking.Allocations
import BuzzDB.Locking.CommittedSlots
import BuzzDB.Operators.SeqScan
import BuzzDB.Operators.LiveRecords
import BuzzDB.Operators.StoredRecords
import BuzzDB.Operators.FilledTables
import BuzzDB.Lib.Recoveries
import BuzzDB.Recovery.CrashCycles
