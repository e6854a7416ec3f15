import VelocityX.Lib.Transition
import VelocityX.Lib.Sections
import VelocityX.Lib.Word
import VelocityX.Lib.Ring
import VelocityX.Lib.WordRing
import VelocityX.Lib.Fifo
import VelocityX.Lib.Retry
import VelocityX.Lib.Linked
import VelocityX.Lib.Partition
import VelocityX.Lib.FiniteMap
import VelocityX.Lib.Iter
import VelocityX.Lib.Linearization
import VelocityX.Lib.Tally
import VelocityX.Lib.Maximum
import VelocityX.Lib.Places
import VelocityX.Lib.Amortized
import VelocityX.Lib.LockOrder
import VelocityX.Error
import VelocityX.Metrics.Atomic
import VelocityX.Metrics.Threads
import VelocityX.Metrics.Consistency
import VelocityX.Metrics.Maxima
import VelocityX.Metrics.Progress
import VelocityX.Metrics.Average
import VelocityX.Queue.MpmcSimple
import VelocityX.Queue.MpmcSimpleWindow
import VelocityX.Queue.MpmcSimpleHandles
import VelocityX.Queue.MpmcSimpleDrop
import VelocityX.Queue.MpmcSimpleThreads
import VelocityX.Queue.MpmcSimpleSafety
import VelocityX.Queue.MpmcSimpleLinearizable
import VelocityX.Queue.MpmcSimpleLen
import VelocityX.Queue.MpmcSimpleMetrics
import VelocityX.Queue.MpmcSimpleContents
import VelocityX.Queue.MpmcSimpleBatch
import VelocityX.Queue.MpmcSimpleWrap
import VelocityX.Queue.MpmcSimplePoison
import VelocityX.Queue.MpmcSimpleLocks
import VelocityX.Queue.Mpmc
import VelocityX.Queue.MpmcCapacity
import VelocityX.Queue.MpmcLen
import VelocityX.Queue.MpmcBatch
import VelocityX.Queue.MpmcThreads
import VelocityX.Queue.MpmcDelivery
import VelocityX.Queue.MpmcOwnership
import VelocityX.Queue.Timeout
import VelocityX.Queue.TimeoutDeadline
import VelocityX.Queue.TimeoutFactory
import VelocityX.Queue.UnboundedThreads
import VelocityX.Queue.UnboundedDelivery
import VelocityX.Queue.UnboundedOwnership
import VelocityX.Queue.UnboundedSize
import VelocityX.Queue.UnboundedLinearizable
import VelocityX.Queue.MpmcLinearizable
import VelocityX.Stack.LockFree
import VelocityX.Stack.LockFreeThreads
import VelocityX.Stack.LockFreeAba
import VelocityX.Stack.LockFreeSingleConsumer
import VelocityX.Stack.LockFreeMetrics
import VelocityX.Stack.LockFreeBatch
import VelocityX.Stack.LockFreeLifecycle
import VelocityX.Stack.LockFreeProgress
import VelocityX.Stack.LockFreeLen
import VelocityX.Deque.WorkStealing
import VelocityX.Deque.WorkStealingWrap
import VelocityX.Deque.WorkStealingThreads
import VelocityX.Deque.WorkStealingDelivery
import VelocityX.Deque.WorkStealingSpan
import VelocityX.Deque.WorkStealingPlaces
import VelocityX.Deque.WorkStealingLinearizable
import VelocityX.Metrics.Disabled
import VelocityX.Map.Bucket
import VelocityX.Map.Table
import VelocityX.Map.Resize
import VelocityX.Map.Concurrent
import VelocityX.Map.Growth
import VelocityX.Map.Clone
import VelocityX.Map.Stripes
import VelocityX.Map.Striped
import VelocityX.Map.StripedLinearizable
import VelocityX.Map.Readers
import VelocityX.Map.Ownership
import VelocityX.Map.ResizeThreads
import VelocityX.Map.ResizeExclusion
import VelocityX.Map.ResizeHelpers
import VelocityX.Map.ResizeLoop
import VelocityX.Map.Allocation
import VelocityX.Map.Content
import VelocityX.Map.Locked
import VelocityX.Map.Overflow
import VelocityX.Map.DuringResize
import VelocityX.Map.DuringResizeInvariant
import VelocityX.Map.ResizeWrites
import VelocityX.Map.ResizeLookups
import VelocityX.Queue.MpmcAgreement
