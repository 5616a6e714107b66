import Alaya.Lib.Run
import Alaya.Lib.Recent
import Alaya.Lib.Windows
import Alaya.Lib.Json
import Alaya.Lib.Derived
import Alaya.Lib.Digits
import Alaya.Lib.Ledger
import Alaya.Lib.Program
import Alaya.Lib.Among
import Alaya.Lib.Chain
import Alaya.Lib.Rows
import Alaya.Lib.Paging
import Alaya.Lib.Keyset
import Alaya.Lib.Collect
import Alaya.Lib.Lines
import Alaya.Lib.Quoted
import Alaya.Lib.UnionFind
import Alaya.Lib.Greatest
import Alaya.Lib.Trim
import Alaya.Lib.Words
import Alaya.Lib.Grid
import Alaya.Lib.Budget
import Alaya.Lib.Offsets
import Alaya.Lib.Gregorian
import Alaya.Lib.Utf8
import Alaya.Types.Error
import Alaya.Types.Citation
import Alaya.Types.Grammar
import Alaya.Types.Float
import Alaya.Types.Double
import Alaya.Types.Memory
import Alaya.Types.Graph
import Alaya.Core.StoreParams
import Alaya.Core.Calendar
import Alaya.Backends.Points
import Alaya.Backends.Payload
import Alaya.Backends.Readers
import Alaya.Backends.UpdatePoints
import Alaya.Backends.Writers
import Alaya.Cluster.Op
import Alaya.Cluster.Landing
import Alaya.Cluster.Record
import Alaya.Cluster.World
import Alaya.Cluster.Change
import Alaya.Cluster.Atomicity
import Alaya.Cluster.History
import Alaya.Cluster.Cell
import Alaya.Cluster.Verdict
import Alaya.Cluster.Standing
import Alaya.Cluster.Story
import Alaya.Cluster.AccessCount
import Alaya.Cluster.StoreDelete
import Alaya.Cluster.Deletion
import Alaya.Cluster.Supersession
import Alaya.Cluster.SummaryPair
import Alaya.Cluster.Frame
import Alaya.Bridge.Graph
import Alaya.Bridge.Params
import Alaya.Bridge.Reply
import Alaya.Bridge.Hebbian
import Alaya.Bridge.Queue
import Alaya.Core.Service
import Alaya.Core.Tags
import Alaya.Backends.Vectors
import Alaya.Backends.Codec
import Alaya.Backends.Transport
import Alaya.Backends.Rerank
import Alaya.Backends.KeywordFill
import Alaya.Backends.KeywordCalls
import Alaya.Backends.Embedding
import Alaya.Bridge.Handlers
import Alaya.Core.Supersede
import Alaya.Core.Store
import Alaya.Core.Refute
import Alaya.Core.Sequence
import Alaya.Core.Stored
import Alaya.Core.Footprint
import Alaya.Core.Interference
import Alaya.Core.WholeWord
import Alaya.Core.Quiescence
import Alaya.Core.Chains
import Alaya.Core.EdgeKept
import Alaya.Core.EdgeDelete
import Alaya.Core.Refutation
import Alaya.Core.Merge
import Alaya.Core.Judge
import Alaya.Backends.JudgeClient
import Alaya.Core.LinkRecord
import Alaya.Bridge.Contradictions
import Alaya.Core.Stats
import Alaya.Core.StatsWindow
import Alaya.Core.Contradictions
import Alaya.Core.Deduplication
import Alaya.Bridge.ForHashes
import Alaya.Core.NewerRelated
import Alaya.Backends.UpdateRun
import Alaya.Search.Ranking
import Alaya.Search.Hybrid
import Alaya.Search.CoAccess
import Alaya.Search.Window
import Alaya.Server.Backfill
import Alaya.Server.JudgeCap
import Alaya.Server.JudgeWrites
import Alaya.Console.Sessions
import Alaya.Console.Flash
import Alaya.Console.Effect
import Alaya.Console.Fleet
import Alaya.Console.Document
import Alaya.Console.Clients
import Alaya.Console.Commit
import Alaya.Console.Confirm
import Alaya.Console.Committed
import Alaya.Console.Exposition
import Alaya.Console.Writes
import Alaya.Console.Traces
import Alaya.Server.CachedEmbedding
import Alaya.Server.Breaker
import Alaya.Core.Sweep
import Alaya.Core.SweepRun
import Alaya.Search.Visibility
import Alaya.Search.Tag
import Alaya.Search.Recent
import Alaya.Search.Scan
import Alaya.Search.Modes
import Alaya.Search.Spreading
import Alaya.Core.Replay
import Alaya.Core.ReadOnly
import Alaya.Server.Auth
import Alaya.Server.Gate
import Alaya.Server.Worker
import Alaya.Server.Custody
import Alaya.Server.Drains
import Alaya.Server.Watchdog
import Alaya.Oidc.Provider
import Alaya.Oidc.Flight
import Alaya.Oidc.Trust
import Alaya.Oidc.Progress
import Alaya.Oidc.Accept
import Alaya.Console.Login
