import ConcurrencySandbox.Interleaving.Count
import ConcurrencySandbox.Structures.Chain
import ConcurrencySandbox.ThreadSafeQueue.Wakeup
import ConcurrencySandbox.ExtendibleBucket.Growth
import ConcurrencySandbox.CompositeQueueLock.Exclusion
import ConcurrencySandbox.HazardPointer.Domain
import ConcurrencySandbox.HazardPointer.Refinement
import ConcurrencySandbox.HazardPointer.Claim
import ConcurrencySandbox.MSQueue.Basic
import ConcurrencySandbox.MSQueue.Shape
import ConcurrencySandbox.MSQueue.Safety
import ConcurrencySandbox.LockFreeLocalWorkQueue.Basic
import ConcurrencySandbox.Structures.Window
import ConcurrencySandbox.LockFreeLocalWorkQueue.Shape
import ConcurrencySandbox.LockFreeLocalWorkQueue.Steps
import ConcurrencySandbox.LockFreeLocalWorkQueue.ExactlyOnce
import ConcurrencySandbox.LockFreeLocalWorkQueue.Failures
import ConcurrencySandbox.RefinableThreadSafeHashmap.Basic
import ConcurrencySandbox.RefinableThreadSafeHashmap.Shape
import ConcurrencySandbox.RefinableThreadSafeHashmap.Steps
import ConcurrencySandbox.RefinableThreadSafeHashmap.Linearizable
import ConcurrencySandbox.RefinableThreadSafeHashmap.Failures
import ConcurrencySandbox.Structures.Precedes
import ConcurrencySandbox.LockFreeHashMap.Basic
import ConcurrencySandbox.LockFreeHashMap.Shape
import ConcurrencySandbox.LockFreeHashMap.Invariant
import ConcurrencySandbox.LockFreeHashMap.Reclamation
import ConcurrencySandbox.LockFreeHashMap.Calls
import ConcurrencySandbox.LockFreeHashMap.Updates
import ConcurrencySandbox.LockFreeHashMap.Lookup
import ConcurrencySandbox.LockFreeHashMap.Lifecycle
import ConcurrencySandbox.TicketLock.Basic
import ConcurrencySandbox.Interleaving.Turns
import ConcurrencySandbox.TicketLock.Tickets
import ConcurrencySandbox.Interleaving.Instances
import ConcurrencySandbox.MCSQueueLock.Basic
import ConcurrencySandbox.MCSQueueLock.Fifo
import ConcurrencySandbox.CLHQueueLock.Basic
import ConcurrencySandbox.ArrayQueueLock.Basic
import ConcurrencySandbox.QueueLock.Instances
import ConcurrencySandbox.StripedThreadSafeHashmap.Basic
import ConcurrencySandbox.StripedThreadSafeHashmap.Linearizable
import ConcurrencySandbox.CLHTimeOutQueueLock.Basic
import ConcurrencySandbox.CLHTimeOutQueueLock.Safety
import ConcurrencySandbox.LockFreeStack.Basic
import ConcurrencySandbox.HazardPointer.Client
import ConcurrencySandbox.LockFreeStack.Lifo
import ConcurrencySandbox.MSQueue.Fifo
import ConcurrencySandbox.LockFreeHashMap.Sequential
import ConcurrencySandbox.LockFreeHashMap.FiniteMap
import ConcurrencySandbox.LockFreeHashMap.SplitOrder
import ConcurrencySandbox.LockFreeHashMap.Map
import ConcurrencySandbox.LockFreeHashMap.Size
import ConcurrencySandbox.ThreadSafeQueue.Fifo
import ConcurrencySandbox.Interleaving.Monitor
import ConcurrencySandbox.SharedLock.Basic
import ConcurrencySandbox.SharedLock.Exclusion
import ConcurrencySandbox.Barrier.Basic
import ConcurrencySandbox.Barrier.Rounds
import ConcurrencySandbox.HierarchicalMutex.Basic
import ConcurrencySandbox.Interleaving.Waiting
import ConcurrencySandbox.HierarchicalMutex.Levels
import ConcurrencySandbox.FixedSizeThreadSafeHashMap.Basic
import ConcurrencySandbox.FixedSizeThreadSafeHashMap.Locks
import ConcurrencySandbox.FixedSizeThreadSafeHashMap.Snapshots
import ConcurrencySandbox.DeleteLists.Basic
import ConcurrencySandbox.DeleteLists.Custody
import ConcurrencySandbox.DeleteLists.Conservation
import ConcurrencySandbox.DeleteLists.Garbage
import ConcurrencySandbox.ThreadPool.Basic
import ConcurrencySandbox.ThreadPool.LocalQueue
import ConcurrencySandbox.ThreadPool.Lifetime
import ConcurrencySandbox.ThreadPool.Tasks
import ConcurrencySandbox.ThreadPool.Isolation
import ConcurrencySandbox.ThreadPool.Destruction
import ConcurrencySandbox.HierarchicalCLHQueueLock.Basic
import ConcurrencySandbox.HierarchicalCLHQueueLock.Queues
import ConcurrencySandbox.HierarchicalCLHQueueLock.Exclusion
import ConcurrencySandbox.Future.Basic
import ConcurrencySandbox.Future.OneShot
import ConcurrencySandbox.InterruptibleThread.Basic
import ConcurrencySandbox.InterruptibleThread.Registration
import ConcurrencySandbox.Interleaving.Calls
import ConcurrencySandbox.Interleaving.Termination
import ConcurrencySandbox.ParallelAlgorithm.Find
import ConcurrencySandbox.Structures.Segment
import ConcurrencySandbox.ParallelAlgorithm.Partition
import ConcurrencySandbox.ParallelAlgorithm.PartialSum
import ConcurrencySandbox.ParallelAlgorithm.Handover
import ConcurrencySandbox.ParallelAlgorithm.Failures
import ConcurrencySandbox.ParallelAlgorithm.Sums
import ConcurrencySandbox.ParallelAlgorithm.Coverage
import ConcurrencySandbox.Structures.Cell
import ConcurrencySandbox.AtomicStampedPointer.Basic
import ConcurrencySandbox.AtomicStampedPointer.Pair
import ConcurrencySandbox.Interleaving.Sections
import ConcurrencySandbox.PetersonLock.Basic
import ConcurrencySandbox.PetersonLock.Exclusion
import ConcurrencySandbox.LockedCounter.Basic
import ConcurrencySandbox.ThreadSafeStack.Basic
import ConcurrencySandbox.ThreadSafeStack.Lifo
import ConcurrencySandbox.Latch.Basic
import ConcurrencySandbox.TicketLock.Carry
import ConcurrencySandbox.ParallelAlgorithm.ForEach
import ConcurrencySandbox.Structures.Deque
import ConcurrencySandbox.LockFreeLocalWorkQueue.Deque
import ConcurrencySandbox.Interleaving.Simulation
import ConcurrencySandbox.HazardPointerList.Basic
import ConcurrencySandbox.HazardPointerList.Refinement
import ConcurrencySandbox.HazardPointerList.Protection
