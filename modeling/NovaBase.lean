import NovaBase.Lib.Bytes
import NovaBase.Lib.Action
import NovaBase.Lib.Postings
import NovaBase.Lib.Blocks
import NovaBase.Lib.Checksum
import NovaBase.Lib.FramedLog
import NovaBase.Lib.Redo
import NovaBase.Lib.Run
import NovaBase.Lib.SortedMap
import NovaBase.Lib.StableSort
import NovaBase.Lib.Search
import NovaBase.Lib.Tally
import NovaBase.Lib.Schedule
import NovaBase.Lib.Parsing
import NovaBase.Lib.Calendar
import NovaBase.Lib.Prefixes
import NovaBase.Core.Error
import NovaBase.Core.File
import NovaBase.Core.Directory
import NovaBase.Core.Path
import NovaBase.Core.Float
import NovaBase.Core.Value
import NovaBase.Core.Identifiers
import NovaBase.Core.Timestamp
import NovaBase.Storage.Page
import NovaBase.Storage.PageImage
import NovaBase.Storage.PageFit
import NovaBase.Storage.PageSlots
import NovaBase.Storage.PageHistory
import NovaBase.Storage.Manager
import NovaBase.Storage.FailedAllocation
import NovaBase.Storage.Faults
import NovaBase.Wal.Record
import NovaBase.Wal.Framing
import NovaBase.Wal.Log
import NovaBase.Wal.Corruption
import NovaBase.Wal.TornTail
import NovaBase.Wal.Survival
import NovaBase.Wal.Durability
import NovaBase.Wal.FailedAppend
import NovaBase.Wal.Recovery
import NovaBase.Wal.CrashRecovery
import NovaBase.Nbf.Varint
import NovaBase.Nbf.Codec
import NovaBase.Nbf.RoundTrip
import NovaBase.Nbf.Layout
import NovaBase.Nbf.Canonical
import NovaBase.Index.Key
import NovaBase.Index.BPlusTree
import NovaBase.Index.Leaves
import NovaBase.Index.Shape
import NovaBase.Index.Insertion
import NovaBase.Index.Verify
import NovaBase.Index.Multimap
import NovaBase.Index.Height
import NovaBase.Index.Snapshot
import NovaBase.Index.Validation
import NovaBase.Index.Maintenance
import NovaBase.Index.SnapshotRoundTrip
import NovaBase.Index.TreeFile
import NovaBase.Index.Metadata
import NovaBase.Index.Damage
import NovaBase.Index.Reopen
import NovaBase.Index.Upkeep
import NovaBase.Index.CatalogFiles
import NovaBase.Index.Persistence
import NovaBase.Index.Torn
import NovaBase.Index.Interruption
import NovaBase.Index.Recovery
import NovaBase.Index.Lifetimes
import NovaBase.Storage.Engine
import NovaBase.Storage.InsertOnlyMap
import NovaBase.Transaction.Manager
import NovaBase.Transaction.Locks
import NovaBase.Transaction.Outcome
import NovaBase.Transaction.Serializability
import NovaBase.Transaction.Restart
import NovaBase.Buffer.Transparent
import NovaBase.Buffer.FailedCall
import NovaBase.Auth.Service
import NovaBase.Auth.Sessions
import NovaBase.Server.Protocol
import NovaBase.Server.Wire
import NovaBase.Server.Serve
import NovaBase.Lib.Text
import NovaBase.Lib.Consumption
import NovaBase.NovaQl.Syntax
import NovaBase.NovaQl.Lexer
import NovaBase.NovaQl.Scanning
import NovaBase.NovaQl.Lexemes
import NovaBase.NovaQl.StringLiterals
import NovaBase.NovaQl.Parser
import NovaBase.NovaQl.Render
import NovaBase.NovaQl.Expressions
import NovaBase.NovaQl.RoundTrip
import NovaBase.NovaQl.Descent
import NovaBase.NovaQl.Safety
import NovaBase.NovaQl.Nesting
import NovaBase.NovaQl.IndexCommand
import NovaBase.Executor.Runtime
import NovaBase.Executor.Pipeline
import NovaBase.Executor.Plan
import NovaBase.Executor.Backend
import NovaBase.Executor.Execute
import NovaBase.Executor.Frame
import NovaBase.Executor.Memory
import NovaBase.Executor.Contents
import NovaBase.Executor.Mirrored
import NovaBase.Intelligence.Analysis
import NovaBase.Intelligence.Lifecycle
import NovaBase.Intelligence.Totals
import NovaBase.Intelligence.Advisor
import NovaBase.Intelligence.Assistant
import NovaBase.Intelligence.Decisions
import NovaBase.Executor.Order
import NovaBase.Executor.Comparison
import NovaBase.Executor.Sorting
import NovaBase.Executor.Projection
import NovaBase.Executor.Assignments
import NovaBase.Executor.Statements
import NovaBase.Executor.Store
import NovaBase.Executor.Atomicity
import NovaBase.Executor.Failures
import NovaBase.Executor.Storable
import NovaBase.Executor.Telemetry
import NovaBase.Executor.LiteralFree
import NovaBase.Executor.Indexable
import NovaBase.Executor.Suggestions
import NovaBase.Executor.Agreement
import NovaBase.Executor.Overlooked
import NovaBase.Executor.Together
import NovaBase.Executor.Trace
import NovaBase.Executor.Attribution
import NovaBase.Server.Connection
import NovaBase.Server.Roles
import NovaBase.Sdk.Session
import NovaBase.Sdk.Answers
import NovaBase.Sdk.AtMostOnce
