import Skippr.L2Store.OffsetPublish
import Skippr.L2Store.CatalogRace
import Skippr.L2Store.CatalogKeys
import Skippr.L2Store.CatalogSequential
import Skippr.L3Wal.RepeatCall
import Skippr.L3Wal.CommitCeiling
import Skippr.L3Wal.RewriteLive
import Skippr.L3Wal.SegmentScan
import Skippr.L3Wal.ReclaimRace
import Skippr.L4Ingest.SourceHost
import Skippr.L4Ingest.SharedKey
import Skippr.L4Ingest.SidecarFits
import Skippr.L4Ingest.TaskQueue
import Skippr.L5Compaction.GroupedSink
import Skippr.L5Compaction.CompactorSafety
import Skippr.L5Compaction.Scheduler
import Skippr.L5Compaction.SinkSlots
import Skippr.L5Compaction.CompactionId
import Skippr.L6Lake.ReadPin
import Skippr.L6Lake.BusinessKey
import Skippr.L6Lake.CdcCompaction
import Skippr.L6Lake.GroupedAppend
import Skippr.L6Lake.CatalogOutbox
import Skippr.L6Lake.FsCatalogLinear
import Skippr.L6Lake.DynamoCatalog
import Skippr.L7Query.CdcReconcile
import Skippr.L8Stream.Restart
import Skippr.L8Stream.KeyText
import Skippr.L9Schema.FieldIdentity
import Skippr.L9Schema.MigrationCalls
import Skippr.L9Schema.SchemaBarrier
import Skippr.L10Warehouse.FinalState
import Skippr.L11Sources.MysqlTokens
import Skippr.L11Sources.DynamodbStream
import Skippr.L11Sources.PostgresReport
