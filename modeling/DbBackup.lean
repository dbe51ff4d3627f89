import DbBackup.Config.IncludeGraph
import DbBackup.Config.ResolvedJob
import DbBackup.Config.Secrets
import DbBackup.Engine.Connectivity
import DbBackup.Engine.Couch.Paging
import DbBackup.Engine.Influx.Export
import DbBackup.Engine.Influx.LineReading
import DbBackup.Engine.Influx.PhysicalMerge
import DbBackup.Engine.Influx.Slice
import DbBackup.Engine.Mongo.Incremental
import DbBackup.Engine.Mongo.InsertsOnce
import DbBackup.Engine.Mongo.OrderKept
import DbBackup.Engine.Mssql.Cuts
import DbBackup.Engine.Mssql.ViewOrder
import DbBackup.Engine.Mysql.Binlog
import DbBackup.Engine.Mysql.Rewrite
import DbBackup.Engine.Mysql.RowsBack
import DbBackup.Engine.Mysql.Statements
import DbBackup.Engine.Postgres.CopyArray
import DbBackup.Engine.Postgres.CopyNumeric
import DbBackup.Engine.Postgres.CopyText
import DbBackup.Engine.Postgres.Inheritance
import DbBackup.Engine.Postgres.LargeObjects
import DbBackup.Engine.Postgres.Naming
import DbBackup.Engine.Postgres.References
import DbBackup.Engine.Postgres.Replay
import DbBackup.Engine.Postgres.SlotNames
import DbBackup.Engine.Postgres.Slots
import DbBackup.Engine.Postgres.Split
import DbBackup.Engine.Redis.LineCodec
import DbBackup.Engine.Redis.RoundTrip
import DbBackup.Engine.Redis.Vanishing
import DbBackup.Engine.SourceDatabases
import DbBackup.Engine.Sqlite.Restore
import DbBackup.Pipeline.ChunkHeld
import DbBackup.Pipeline.Compress
import DbBackup.Pipeline.OpenBackup
import DbBackup.Pipeline.OpensslDamage
import DbBackup.Restore.Order
import DbBackup.Retention.Deletion
import DbBackup.Retention.Fixpoint
import DbBackup.Retention.Offload
import DbBackup.Runner.Aliasing
import DbBackup.Runner.Base
import DbBackup.Runner.Depth
import DbBackup.Runner.GlobFile
import DbBackup.Runner.Position
import DbBackup.Runner.ReadBack
import DbBackup.Runner.SubJobs
import DbBackup.Runner.TokenGuard
import DbBackup.Scheduler.Anchored
import DbBackup.Scheduler.ClockTimes
import DbBackup.Scheduler.ExitCode
import DbBackup.Scheduler.Phrases
import DbBackup.Scheduler.RejectedWindow
import DbBackup.Stats.Aggregate
import DbBackup.Stats.Payload
import DbBackup.Stats.TrackerLog
import DbBackup.Stats.VersionCompare
import DbBackup.Storage.FsUpload
import DbBackup.Storage.Listing
import DbBackup.Storage.MultipartUpload
import DbBackup.Storage.Renaming
import DbBackup.Storage.S3Urls
