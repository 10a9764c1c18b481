import SysProg.Lib.Run
import SysProg.Lib.Threads
import SysProg.Lib.Chain
import SysProg.Lib.Monitor
import SysProg.Lib.Loop
import SysProg.Concurrency.Queue
import SysProg.Concurrency.QueueFifo
import SysProg.Concurrency.QueueWakeup
import SysProg.Concurrency.Barrier
import SysProg.Concurrency.Semamore
import SysProg.Vector.Vector
import SysProg.Vector.VectorList
import SysProg.Vector.VectorLifetimes
import SysProg.Vector.VectorRefines
import SysProg.Lib.AdjGraph
import SysProg.Lib.EdgeGraph
import SysProg.Lib.Bytes
import SysProg.Lib.PriQueue
import SysProg.Lib.Dll
import SysProg.Lib.InPlace
import SysProg.Parmake.CheckCycle
import SysProg.Parmake.TopologicalSort
import SysProg.Parmake.Workers
import SysProg.Parmake.WorkersOrder
import SysProg.Parmake.WorkersOnce
import SysProg.Parmake.WorkersLive
import SysProg.Parmake.WorkersProgress
import SysProg.Drm.Drm
import SysProg.Drm.Ownership
import SysProg.Drm.CircularWaits
import SysProg.Scheduler.Scheduler
import SysProg.Scheduler.History
import SysProg.Scheduler.Dispatch
import SysProg.Scheduler.RoundRobin
import SysProg.Scheduler.Averages
import SysProg.Minixfs.Minixfs
import SysProg.Minixfs.Contents
import SysProg.Minixfs.WriteRead
import SysProg.Malloc.Alloc
import SysProg.Malloc.Blocks
import SysProg.Malloc.AllocSafety
import SysProg.Malloc.Linked
import SysProg.Malloc.Conservation
import SysProg.Malloc.Requests
import SysProg.Malloc.Tiling
import SysProg.Malloc.Realloc
import SysProg.Mmu.Mmu
import SysProg.Mmu.Frames
import SysProg.Mmu.Access
import SysProg.Mmu.Processes
import SysProg.Mmu.Isolation
import SysProg.Mmu.TlbTransparent
import SysProg.Mmu.Permissions
import SysProg.Mmu.Ownership
import SysProg.Net.Common
import SysProg.Net.Sending
import SysProg.Net.Server
import SysProg.Net.Client
import SysProg.Net.ClientBuffers
import SysProg.Net.Serving
import SysProg.Net.Requests
import SysProg.Net.Poll
import SysProg.Net.Uploads
import SysProg.Net.Arrivals
import SysProg.Net.Determined
import SysProg.Net.GetSends
import SysProg.Net.Headers
import SysProg.Net.FileMap
import SysProg.Net.Refusal
import SysProg.Net.Turns
import SysProg.Net.WholeGets
import SysProg.Net.Sessions
import SysProg.MiniMemcheck.MiniMemcheck
import SysProg.MiniMemcheck.Ledger
import SysProg.MiniMemcheck.Realloc
import SysProg.Lib.CString
import SysProg.Vector.Sstring
import SysProg.Vector.SstringValues
import SysProg.Chat.Utils
import SysProg.Chat.Framing
import SysProg.Chat.ProcessClient
import SysProg.Chat.Server
import SysProg.Chat.Slots
import SysProg.Chat.SlotsKept
import SysProg.Chat.Broadcasts
import SysProg.PasswordCracker.Utils
import SysProg.PasswordCracker.Cracker1
import SysProg.PasswordCracker.Cracker1Runs
import SysProg.PasswordCracker.Cracker2
import SysProg.PasswordCracker.Cracker2Search
import SysProg.PasswordCracker.Cracker2Rounds
import SysProg.PasswordCracker.Cracker2Summaries
import SysProg.MapReduce.Mapreduce
import SysProg.MapReduce.Pipeline
import SysProg.MapReduce.Stuck
import SysProg.Lib.Ctype
import SysProg.ExtremeEdgeCases.CamelCaser
import SysProg.ExtremeEdgeCases.CamelCase
import SysProg.MadMadAccessPatterns.Lookup
import SysProg.MadMadAccessPatterns.Search
import SysProg.Lib.Slices
import SysProg.Minixfs.ReadSlices
import SysProg.Minixfs.SizeCheck
import SysProg.Minixfs.Create
import SysProg.Minixfs.AppendEntry
import SysProg.Vector.Reserve
import SysProg.Vector.Leaks
import SysProg.Vector.SstringPieces
import SysProg.Shell.Tokens
import SysProg.Shell.History
import SysProg.Lib.Follow
import SysProg.MadMadAccessPatterns.Offsets
import SysProg.MadMadAccessPatterns.Block
import SysProg.MadMadAccessPatterns.Ends
import SysProg.DeepfriedDd.Dd
import SysProg.TeachingThreads.ParReduce
import SysProg.Lib.Atoi
import SysProg.Shell.Replay
import SysProg.Shell.Pids
import SysProg.Shell.Chains
import SysProg.Parmake.Outcomes
import SysProg.Concurrency.SemamoreWakeup
import SysProg.Concurrency.BarrierWakeup
import SysProg.Concurrency.Rendezvous
import SysProg.Malloc.Objects
import SysProg.Shell.Children
import SysProg.Chat.TotalOrder
import SysProg.Net.FileUse
import SysProg.Net.Apart
import SysProg.Chat.Screens
import SysProg.Lib.Pipe
import SysProg.MapReduce.Streams
import SysProg.Minixfs.FileStore
import SysProg.Lib.Completions
import SysProg.Scheduler.Shortest
import SysProg.Lib.Remaining
import SysProg.Scheduler.ShortestRemaining
