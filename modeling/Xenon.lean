import Xenon.Foundation.Run
import Xenon.Foundation.History
import Xenon.Foundation.Pool
import Xenon.Foundation.Selection
import Xenon.Foundation.Disjoint
import Xenon.Foundation.Cursor
import Xenon.Foundation.Until
import Xenon.Foundation.ReadOnce
import Xenon.Foundation.SingleDifference
import Xenon.Foundation.Long
import Xenon.Foundation.SortedMap
import Xenon.Foundation.Rotation
import Xenon.Foundation.FanOut
import Xenon.Foundation.Regex
import Xenon.Foundation.Text
import Xenon.Foundation.Framing
import Xenon.Foundation.Utf8
import Xenon.Foundation.Base64
import Xenon.Foundation.Fields
import Xenon.Foundation.FloatingPoint
import Xenon.Common.Operation
import Xenon.Common.FNVHash
import Xenon.Common.HashingJsonWriter
import Xenon.Common.ServiceDocument
import Xenon.Common.Signature
import Xenon.Common.Completion
import Xenon.Common.ProcessingChain
import Xenon.Common.OperationJoin
import Xenon.Common.UnbatchedJoin
import Xenon.Common.OperationSequence
import Xenon.Common.SequenceRuns
import Xenon.Common.UriUtils
import Xenon.Common.UriPaths
import Xenon.Common.IndexQuery
import Xenon.Common.LogicalClock
import Xenon.Replication.Context
import Xenon.Replication.Outcome
import Xenon.Replication.Service
import Xenon.Replication.Accounting
import Xenon.Replication.Decides
import Xenon.Replication.Durable
import Xenon.Synchronization.Service
import Xenon.Synchronization.Best
import Xenon.Synchronization.Order
import Xenon.Synchronization.Broadcast
import Xenon.Synchronization.Historical
import Xenon.Synchronization.VersionedLinks
import Xenon.SynchronizationTask.Service
import Xenon.SynchronizationTask.Runs
import Xenon.SynchronizationTask.Walk
import Xenon.Transaction.Coordinator
import Xenon.Transaction.Final
import Xenon.Transaction.Messages
import Xenon.Transaction.Conflicts
import Xenon.SimpleTransaction.Service
import Xenon.SimpleTransaction.Isolation
import Xenon.SimpleTransaction.Changes
import Xenon.SimpleTransaction.History
import Xenon.SimpleTransaction.Atomic
import Xenon.Stateful.OperationQueue
import Xenon.Common.OperationQueue
import Xenon.Common.RoundRobinOperationQueue
import Xenon.Common.OperationTracker
import Xenon.Common.TimeSeriesStats
import Xenon.Common.RequestRateLimits
import Xenon.Common.ServiceMaintenanceTracker
import Xenon.Common.Notifications
import Xenon.Common.StateUpdates
import Xenon.Common.ReportedChanges
import Xenon.Stateful.Gate
import Xenon.Stateful.Versions
import Xenon.Stateful.Service
import Xenon.Stateful.Synchronized
import Xenon.Stateful.Exclusion
import Xenon.Stateful.Order
import Xenon.Stateful.Live
import Xenon.Stateful.Follows
import Xenon.Stateful.Pending
import Xenon.Stateful.Monotone
import Xenon.Stateful.StateCache
import Xenon.Authorization.Context
import Xenon.Authorization.Composition
import Xenon.Filter.QueryFilter
import Xenon.Filter.Dnf
import Xenon.Filter.Faithful
import Xenon.QueryTask.Query
import Xenon.Filter.Evaluator
import Xenon.Filter.Negation
import Xenon.Filter.Wildcard
import Xenon.Filter.Dispatch
import Xenon.Filter.DispatchTree
import Xenon.Filter.DispatchAgree
import Xenon.Filter.Objects
import Xenon.Lucene.Query
import Xenon.Lucene.Converter
import Xenon.Filter.Ranges
import Xenon.Lucene.Meaning
import Xenon.Lucene.Narrow
import Xenon.Lucene.TermInSet
import Xenon.Lucene.Boolean
import Xenon.Lucene.Agree
import Xenon.Index.Cache
import Xenon.Lucene.KindScope
import Xenon.Index.Searcher
import Xenon.Index.Fresh
import Xenon.Index.Versions
import Xenon.Index.Latest
import Xenon.Index.Pages
import Xenon.Index.Pagination
import Xenon.OData.Tokenizer
import Xenon.OData.Visitor
import Xenon.OData.Walk
import Xenon.OData.Expression
import Xenon.OData.Grammar
import Xenon.OData.Literals
import Xenon.OData.Precedence
import Xenon.OData.Grouping
import Xenon.OData.Comparisons
import Xenon.OData.Numbers
import Xenon.OData.Meaning
import Xenon.OData.OrderBy
import Xenon.OData.StatsFilter
import Xenon.NodeGroup.State
import Xenon.NodeGroup.Merge
import Xenon.NodeGroup.Service
import Xenon.NodeGroup.Versions
import Xenon.NodeGroup.Quorums
import Xenon.NodeGroup.Gossip
import Xenon.NodeGroup.Removal
import Xenon.NodeGroup.GroupQuorum
import Xenon.NodeSelector.Selection
import Xenon.NodeSelector.Agreement
import Xenon.NodeSelector.Moves
import Xenon.NodeSelector.Availability
import Xenon.NodeSelector.PendingQueue
import Xenon.NodeSelector.Neighbours
import Xenon.Http.ChannelPool
import Xenon.Http.ServiceClient
import Xenon.Http.Request
import Xenon.Http.Retry
import Xenon.Http.Headers
import Xenon.Http.Pragma
import Xenon.Http.CookieJar
import Xenon.Http.ServerSentEventConverter
import Xenon.Http.EventStreamHandler
import Xenon.Jwt.Signer
import Xenon.Jwt.Verifier
import Xenon.Index.NativeQuery
import Xenon.Index.GroupBy
import Xenon.Index.GroupPages
import Xenon.Migration.AllVersions
import Xenon.Index.Continuous
import Xenon.QueryTask.Count
import Xenon.QueryTask.Patch
import Xenon.QueryTask.PatchAtomic
import Xenon.GraphQuery.Service
import Xenon.GraphQuery.Filter
import Xenon.QueryTask.Merge
import Xenon.QueryTask.ReadAfterWrite
import Xenon.Index.Retention
import Xenon.Index.RetentionBound
import Xenon.Index.Expiration
import Xenon.Index.Metadata
import Xenon.Index.MetadataPass
import Xenon.Index.MetadataAgree
import Xenon.Index.Tombstones
import Xenon.Index.PaginatedSearchers
import Xenon.Common.SignatureCodes
import Xenon.ServiceStart.Service
import Xenon.ServiceStart.Order
import Xenon.ServiceStart.Durable
