import Primadb.Auth.Session
import Primadb.Auth.SyncAuth
import Primadb.Core.Chunks
import Primadb.Core.Collections
import Primadb.Core.Comparator
import Primadb.Core.Effect
import Primadb.Core.Enumeration
import Primadb.Core.Gathering
import Primadb.Core.Greatest
import Primadb.Core.Grouping
import Primadb.Core.LastWriter
import Primadb.Core.Restoring
import Primadb.Core.Run
import Primadb.Core.Script
import Primadb.Core.Undo
import Primadb.Core.Ways
import Primadb.Core.Worklist
import Primadb.Data.Clock
import Primadb.Data.CompactedQueue
import Primadb.Data.Input
import Primadb.Data.Operation
import Primadb.Data.Query
import Primadb.Data.QueryOrder
import Primadb.Data.Record
import Primadb.Data.Scope
import Primadb.Data.Value
import Primadb.Db.Announcement
import Primadb.Db.Asking
import Primadb.Db.BlobRace
import Primadb.Db.BreadthFirst
import Primadb.Db.Command
import Primadb.Db.Delivery
import Primadb.Db.Dominance
import Primadb.Db.Finalization
import Primadb.Db.Flushing
import Primadb.Db.Footprint
import Primadb.Db.InMemory
import Primadb.Db.IndexRuns
import Primadb.Db.Inner
import Primadb.Db.Ledger
import Primadb.Db.Mutation
import Primadb.Db.Overlap
import Primadb.Db.Pagination
import Primadb.Db.PathWatch
import Primadb.Db.Persist
import Primadb.Db.PointReads
import Primadb.Db.Projection
import Primadb.Db.Read
import Primadb.Db.RecordScan
import Primadb.Db.RecordWatch
import Primadb.Db.Refinement
import Primadb.Db.Relationships
import Primadb.Db.Revision
import Primadb.Db.Rollback
import Primadb.Db.RootSnapshot
import Primadb.Db.SearchRecords
import Primadb.Db.SnapshotLog
import Primadb.Db.Snapshots
import Primadb.Db.StoredScan
import Primadb.Db.SubscribeRace
import Primadb.Db.Transaction
import Primadb.Db.Traversal
import Primadb.Db.TraversalReach
import Primadb.Db.TraversalRuns
import Primadb.Db.TraversalStore
import Primadb.Db.Unfolding
import Primadb.Db.Write
import Primadb.Engine.Fragments
import Primadb.Engine.Interface
import Primadb.Engine.KeyOrder
import Primadb.Engine.RecordPaths
import Primadb.Engine.Transaction
import Primadb.Graph.Apply
import Primadb.Graph.Change
import Primadb.Graph.Convergence
import Primadb.Graph.Merge
import Primadb.Graph.MergeHistories
import Primadb.Graph.MergeLaws
import Primadb.Graph.MergeParts
import Primadb.Graph.Origin
import Primadb.Graph.SetState
import Primadb.Graph.Slot
import Primadb.Graph.SlotQueue
import Primadb.Graph.SlotRank
import Primadb.Graph.SlotVersions
import Primadb.Net.ClientFrame
import Primadb.Net.Duplicates
import Primadb.Net.Expiry
import Primadb.Net.FanIn
import Primadb.Net.Flooding
import Primadb.Net.Mesh
import Primadb.Net.MeshIdentity
import Primadb.Net.Overlay
import Primadb.Net.PeerIsolation
import Primadb.Net.Reassembly
import Primadb.Net.Relay
import Primadb.Net.RelayClient
import Primadb.Net.RelayPrecision
import Primadb.Net.RemoteResult
import Primadb.Net.Retry
import Primadb.Net.Route
import Primadb.Net.SeenWindow
import Primadb.Net.StreamAssembler
import Primadb.Net.Watch
import Primadb.Net.WatchCurrent
import Primadb.Net.WatchOverlap
import Primadb.Sync.Custody
import Primadb.Sync.Flush
import Primadb.Sync.MeshCustody
import Primadb.Sync.MeshFlush
import Primadb.Text.Ranking
