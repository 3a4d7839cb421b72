import Rekha.Cluster.AppliedLog
import Rekha.Cluster.Bootstrap
import Rekha.Cluster.Clocks
import Rekha.Cluster.CrashedPurge
import Rekha.Cluster.LogStore
import Rekha.Cluster.LogsAgree
import Rekha.Cluster.Metadata
import Rekha.Cluster.Nodes
import Rekha.Cluster.RedbLogStore
import Rekha.Cluster.Replication
import Rekha.Cluster.StateMachine
import Rekha.Cluster.Tables
import Rekha.Core.Filter
import Rekha.Core.FilterAccepts
import Rekha.Core.FilterGrammar
import Rekha.Core.FilterJson
import Rekha.Core.FilterMeaning
import Rekha.Core.Types
import Rekha.Core.UuidText
import Rekha.Distance.Kernels
import Rekha.Engine.AnyOrder
import Rekha.Engine.Buffer
import Rekha.Engine.Collection
import Rekha.Engine.Commute
import Rekha.Engine.Crash
import Rekha.Engine.CrashSteps
import Rekha.Engine.DamagedCheckpoint
import Rekha.Engine.DerivedIndex
import Rekha.Engine.Durable
import Rekha.Engine.Engine
import Rekha.Engine.FailedCheckpoint
import Rekha.Engine.FailedFlush
import Rekha.Engine.FilterOracle
import Rekha.Engine.Filtered
import Rekha.Engine.FilteredSound
import Rekha.Engine.History
import Rekha.Engine.IndexPath
import Rekha.Engine.InferredDimension
import Rekha.Engine.Listed
import Rekha.Engine.LogFile
import Rekha.Engine.LostIndex
import Rekha.Engine.Methods
import Rekha.Engine.NanDistances
import Rekha.Engine.Offsets
import Rekha.Engine.OneDimension
import Rekha.Engine.Opening
import Rekha.Engine.Payloads
import Rekha.Engine.Persisted
import Rekha.Engine.Postings
import Rekha.Engine.Query
import Rekha.Engine.Rejected
import Rekha.Engine.Rows
import Rekha.Engine.Scoring
import Rekha.Engine.Segment
import Rekha.Engine.SegmentFile
import Rekha.Engine.SegmentRoundTrip
import Rekha.Engine.SequenceIds
import Rekha.Engine.SnapshotTransfer
import Rekha.Engine.Spec
import Rekha.Engine.Steps
import Rekha.Engine.TwoTiers
import Rekha.Engine.UpdateFrame
import Rekha.Engine.Vectors
import Rekha.Engine.WalGrowth
import Rekha.Index.Labels
import Rekha.Index.SavePair
import Rekha.Index.Usearch
import Rekha.Lib.Bytes
import Rekha.Lib.Checked
import Rekha.Lib.Csv
import Rekha.Lib.FileTree
import Rekha.Lib.FinMap
import Rekha.Lib.Frames
import Rekha.Lib.Ieee
import Rekha.Lib.Interleaving
import Rekha.Lib.Inverted
import Rekha.Lib.Json
import Rekha.Lib.JsonRead
import Rekha.Lib.Lanes
import Rekha.Lib.LastWrite
import Rekha.Lib.NumberText
import Rekha.Lib.Outcome
import Rekha.Lib.PartialSort
import Rekha.Lib.Processes
import Rekha.Lib.Replica
import Rekha.Lib.Routing
import Rekha.Lib.TopK
import Rekha.Lib.Trace
import Rekha.Lib.UniqueIndex
import Rekha.Lib.UnixPath
import Rekha.Lib.Url
import Rekha.Lib.Utf8
import Rekha.Lib.Wire
import Rekha.Repl.Client
import Rekha.Repl.Display
import Rekha.Repl.InPlace
import Rekha.Repl.Panics
import Rekha.Repl.Print
import Rekha.Repl.RoundTrip
import Rekha.Repl.Select
import Rekha.Repl.Session
import Rekha.Repl.Shown
import Rekha.Repl.Sql
import Rekha.Repl.WhereMeaning
import Rekha.Server.Bodies
import Rekha.Server.Calls
import Rekha.Server.Chroma
import Rekha.Server.Clients
import Rekha.Server.Engine
import Rekha.Server.GetAligned
import Rekha.Server.GetOrCreate
import Rekha.Server.Isolation
import Rekha.Server.Lifecycle
import Rekha.Server.Listing
import Rekha.Server.MetadataJson
import Rekha.Server.Names
import Rekha.Server.Native
import Rekha.Server.NativeRecords
import Rekha.Server.RaftAdmin
import Rekha.Server.Rectangular
import Rekha.Server.Routes
import Rekha.Server.Store
import Rekha.Server.StoreRefinement
import Rekha.Server.TwoApis
import Rekha.Storage.Catalog
import Rekha.Storage.KeyPaths
import Rekha.Storage.LocalStorage
import Rekha.Storage.NameIndex
import Rekha.Storage.ObjectKeys
import Rekha.Storage.ObjectMap
import Rekha.Wal.Append
import Rekha.Wal.Bincode
import Rekha.Wal.FailedPrune
import Rekha.Wal.Fencing
import Rekha.Wal.File
import Rekha.Wal.Format
import Rekha.Wal.GhostRecords
import Rekha.Wal.Handle
import Rekha.Wal.Log
import Rekha.Wal.Records
import Rekha.Wal.Recovery
import Rekha.Wal.Refinement
import Rekha.Wal.TornBatch
