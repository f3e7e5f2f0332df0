import ThreadScheduler.SnfsServer.AppendData
import ThreadScheduler.SnfsServer.CacheWriteback
import ThreadScheduler.SnfsServer.CacheOutPointer
import ThreadScheduler.SnfsServer.CreateRemove
import ThreadScheduler.SnfsServer.DefragCompaction
import ThreadScheduler.SnfsServer.ReadersWritersExclusion
import ThreadScheduler.SnfsServer.ReadersWritersWaiting
import ThreadScheduler.SnfsServer.Requests
import ThreadScheduler.SnfsServer.DirectorySizes
import ThreadScheduler.SnfsServer.FailedCalls
import ThreadScheduler.SnfsServer.CopyAtomicity
import ThreadScheduler.SnfsServer.LookupInterleaving
import ThreadScheduler.SnfsServer.LockBalance
import ThreadScheduler.SnfsServer.RequestRing
import ThreadScheduler.SthreadLib.Queue
import ThreadScheduler.SthreadLib.RedBlackEmptied
import ThreadScheduler.SthreadLib.SchedulerRegistry
import ThreadScheduler.SthreadLib.SchedulerExit
import ThreadScheduler.SthreadLib.SchedulerAbsent
import ThreadScheduler.SthreadLib.SchedulerLevel
import ThreadScheduler.SthreadLib.SchedulerProgress
import ThreadScheduler.SthreadLib.SchedulerJoin
import ThreadScheduler.SthreadLib.SchedulerSpread
import ThreadScheduler.SthreadLib.SchedulerMutex
import ThreadScheduler.SthreadLib.SchedulerClock
import ThreadScheduler.SthreadLib.SchedulerPartition
import ThreadScheduler.SthreadLib.SchedulerSpinFlag
import ThreadScheduler.SnfsServer.BlockReferences
import ThreadScheduler.SnfsServer.RepeatedBlocks
import ThreadScheduler.SnfsServer.StoredTables
import ThreadScheduler.SnfsServer.DirectoryApart
import ThreadScheduler.SnfsServer.HashCells
import ThreadScheduler.SnfsServer.OrderedList
import ThreadScheduler.SnfsLib.OpenSizes
import ThreadScheduler.SnfsLib.ChunkedTransfers
import ThreadScheduler.SthreadLib.SchedulerStarvation
import ThreadScheduler.SthreadLib.SchedulerSleepers
import ThreadScheduler.SnfsLib.Sessions
import ThreadScheduler.SnfsServer.UsageReport
import ThreadScheduler.SnfsServer.DiskAlone
import ThreadScheduler.SnfsServer.BlockImage
import ThreadScheduler.SthreadLib.RedBlackTurns
import ThreadScheduler.SthreadLib.RedBlackFrees
import ThreadScheduler.SthreadLib.SchedulerMonitor
