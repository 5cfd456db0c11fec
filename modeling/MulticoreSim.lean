import MulticoreSim.Library.Machine
import MulticoreSim.Library.Requeue
import MulticoreSim.Library.Lane
import MulticoreSim.Library.ByteStream
import MulticoreSim.Library.Numerals
import MulticoreSim.Library.DirectoryProtocol.Grants
import MulticoreSim.Memory.WriteThrough
import MulticoreSim.Memory.Hierarchy
import MulticoreSim.Memory.Outstanding
import MulticoreSim.Coherence.FiciCpu
import MulticoreSim.Coherence.TraceLines
import MulticoreSim.Coherence.FullMode
import MulticoreSim.Coherence.Bookkeeping
import MulticoreSim.Coherence.ExclusiveGrants
import MulticoreSim.Coherence.DirectoryOrder
import MulticoreSim.Coherence.Closure
import MulticoreSim.Coherence.Fills
import MulticoreSim.Coherence.CoherenceMode
import MulticoreSim.Coherence.Tokens
import MulticoreSim.Coherence.Progress
import MulticoreSim.Coherence.PrivateData
import MulticoreSim.Coherence.RingRoutes
import MulticoreSim.Ooo.Dependences
import MulticoreSim.Ooo.MemoryOrder
import MulticoreSim.Trace.Stalls
import MulticoreSim.Sync.Reader
import MulticoreSim.Sync.Coordinator
import MulticoreSim.Sync.Threads
import MulticoreSim.Sync.Exclusion
import MulticoreSim.Sync.Separation
import MulticoreSim.Memory.WriteBack
import MulticoreSim.Coherence.LlsCache
import MulticoreSim.Coherence.LlsCapacity
import MulticoreSim.Memory.Rows
import MulticoreSim.Memory.CacheRuns
import MulticoreSim.Memory.LruOrder
import MulticoreSim.Memory.Ownership
import MulticoreSim.Memory.WriteCompletion
import MulticoreSim.Memory.AsyncPath
import MulticoreSim.Coherence.PresenceSlots
import MulticoreSim.Coherence.PresenceBounds
import MulticoreSim.Memory.Landing
import MulticoreSim.Memory.MarkovTable
import MulticoreSim.Coherence.FillLanding
import MulticoreSim.Coherence.ProcRequests
import MulticoreSim.Coherence.Completion
import MulticoreSim.Sync.Gates
import MulticoreSim.Ooo.Recovery
import MulticoreSim.Ooo.Utilization
import MulticoreSim.Ooo.Watchdog
import MulticoreSim.Library.RecordStream
import MulticoreSim.Trace.Readings
import MulticoreSim.Trace.Headers
import MulticoreSim.Trace.Manifest
import MulticoreSim.Trace.Truncation
import MulticoreSim.Synth.Locks
import MulticoreSim.Synth.Manifest
import MulticoreSim.Sync.Replay
import MulticoreSim.Library.Rounds
import MulticoreSim.Synth.Barriers
import MulticoreSim.Ooo.Linkage
import MulticoreSim.Coherence.Victims
import MulticoreSim.Coherence.StoreRights
import MulticoreSim.Library.DirectoryProtocol.Copies
import MulticoreSim.Coherence.Copies
import MulticoreSim.Coherence.Inclusion
import MulticoreSim.Coherence.SingleWriter
import MulticoreSim.Predictor.Predictors
import MulticoreSim.Predictor.HybridParts
import MulticoreSim.Library.Deposits
import MulticoreSim.Ooo.BranchPairing
import MulticoreSim.Ooo.Stages
import MulticoreSim.Library.Dataflow
import MulticoreSim.Ooo.Dataflow
import MulticoreSim.Library.Loops
import MulticoreSim.Memory.Latency
import MulticoreSim.Ooo.Liveness
import MulticoreSim.Ooo.Termination
import MulticoreSim.Library.DirectoryProtocol.Ranking
import MulticoreSim.Coherence.RingCompletion
import MulticoreSim.Coherence.SharedWaits
import MulticoreSim.Coherence.Licences
import MulticoreSim.Ooo.Desk
import MulticoreSim.Coherence.Cores
