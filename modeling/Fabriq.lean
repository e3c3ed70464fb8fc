import Fabriq.Document.Segment
import Fabriq.Document.SyncCompleteness
import Fabriq.Live.WindowReplay
import Fabriq.Projection.SearchScope
import Fabriq.Projection.GraphConvergence
import Fabriq.Live.IndexSoundness
import Fabriq.Live.Overflow
import Fabriq.Live.PartitionLifecycle
import Fabriq.Cluster.ShardOwnership
import Fabriq.Live.Reanchor
import Fabriq.Cluster.Acceptance
import Fabriq.Cluster.Unsubscribe
import Fabriq.Live.Reconcile
import Fabriq.Exec.Coercion
import Fabriq.Projection.SearchConvergence
import Fabriq.Projection.Upcast
import Fabriq.Exec.Retention
import Fabriq.Projection.DriftRepair
import Fabriq.Live.SqlParity
import Fabriq.Subscribe.RawDelivery
import Fabriq.Subscribe.CancelFrame
import Fabriq.Subscribe.PumpLifecycle
import Fabriq.Provision.ActiveProvisioned
import Fabriq.Projection.TargetNames
import Fabriq.Cache.Isolation
import Fabriq.Cache.Freshness
import Fabriq.Document.MaterializeOnce
import Fabriq.Document.HistoryComplete
import Fabriq.Document.MissingHistory
import Fabriq.Document.TenantIsolation
import Fabriq.Shard.CatalogDirectory
import Fabriq.Shard.PoolSafety
import Fabriq.Sweep.Decay
import Fabriq.Leader.Elector
import Fabriq.Analytics.RedactVisible
import Fabriq.Remote.LiveReanchor
import Fabriq.Dynamic.Guarded
import Fabriq.Dynamic.SyncConverges
import Fabriq.Dynamic.DdlNames
import Fabriq.Blob.ReconcileHeals
import Fabriq.Blob.SafeCollection
import Fabriq.Live.StreamedRows
import Fabriq.Agent.EmbedIndex
import Fabriq.Agent.Backfill
import Fabriq.Document.SegmentCache
import Fabriq.Analytics.Reproject
import Fabriq.Analytics.HistoryLog
import Fabriq.Live.AnchoredPaging
import Fabriq.Live.SharedViews
import Fabriq.Admin.KeyAuthority
import Fabriq.Projection.RebuildFailure
import Fabriq.Redis.ClaimStale
import Fabriq.Live.RefillRequests
import Fabriq.Exec.BatchRuns
import Fabriq.Exec.Tables
