import CompleteIo.Lib.Machine
import CompleteIo.Epoll.CustomEvent
import CompleteIo.Lib.Channel
import CompleteIo.Lib.OneToken
import CompleteIo.Epoll.CustomEventDelivery
import CompleteIo.Queue.InterruptNotify
import CompleteIo.Queue.LostNotification
import CompleteIo.Lib.Occupancy
import CompleteIo.ThreadPool.GlobalTask
import CompleteIo.ThreadPool.TaskOwnership
import CompleteIo.ThreadPool.TaskStep
import CompleteIo.ThreadPool.TaskWakeup
import CompleteIo.Epoll.EventMask
import CompleteIo.Epoll.HandleEvent
import CompleteIo.Epoll.FuturesRegistration
import CompleteIo.Epoll.InterestsCovered
import CompleteIo.Epoll.SocketFutures
import CompleteIo.Epoll.InterestList
import CompleteIo.Epoll.WakeSource
import CompleteIo.Epoll.ParkedFutures
import CompleteIo.Epoll.EpollSet
import CompleteIo.Epoll.EpollEntries
import CompleteIo.Epoll.BufferedEvents
import CompleteIo.Epoll.OwnEntry
import CompleteIo.Lib.RefCount
import CompleteIo.Epoll.InterestPoll
import CompleteIo.Iocp.OverlappedTask
import CompleteIo.Iocp.OverlappedFuture
import CompleteIo.Iocp.PendingBlocks
import CompleteIo.Iocp.TaskReferences
import CompleteIo.Iocp.OperationFate
import CompleteIo.Iocp.OverlappedReads
import CompleteIo.Iocp.ReadsInOrder
import CompleteIo.Epoll.Interrupt
import CompleteIo.Epoll.SignalChain
import CompleteIo.ThreadPool.WorkerLoop
import CompleteIo.ThreadPool.RunnableWork
import CompleteIo.ThreadPool.Shutdown
import CompleteIo.Net.ReadBuffer
import CompleteIo.Iocp.EventTags
import CompleteIo.Iocp.PacketDispatch
import CompleteIo.Lib.OwnershipHeap
import CompleteIo.Epoll.Instances
import CompleteIo.Epoll.InstanceOwnership
import CompleteIo.Epoll.Reclaim
import CompleteIo.Epoll.EventTags
import CompleteIo.Lib.FixedWidth
import CompleteIo.Queue.Timeout
import CompleteIo.Epoll.InterestPartition
import CompleteIo.Epoll.ReadInPlace
import CompleteIo.Epoll.TurnTimeout
import CompleteIo.Epoll.FailedInterest
import CompleteIo.Epoll.FailedPost
import CompleteIo.Lib.ArcCell
import CompleteIo.Epoll.RegisterFd
import CompleteIo.Epoll.ConnectOutcome
import CompleteIo.Lib.RefCell
import CompleteIo.ThreadPool.LocalSpawn
import CompleteIo.ThreadPool.LocalTask
import CompleteIo.ThreadPool.PollOrder
import CompleteIo.ThreadPool.PoolOwnership
import CompleteIo.ThreadPool.PoolLeak
import CompleteIo.Iocp.CompletionNotify
import CompleteIo.Lib.Compose
import CompleteIo.ThreadPool.SpawnToPoll
import CompleteIo.ThreadPool.PoolSafety
import CompleteIo.ThreadPool.TaskRefs
import CompleteIo.ThreadPool.TaskFreed
import CompleteIo.ThreadPool.RegistryExit
import CompleteIo.ThreadPool.Monopoly
import CompleteIo.Epoll.StreamIntegrity
import CompleteIo.Epoll.DatagramIntegrity
import CompleteIo.ThreadPool.SocketReadiness
import CompleteIo.Queue.PollCount
