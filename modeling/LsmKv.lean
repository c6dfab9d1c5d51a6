import LsmKv.Foundation.Agree
import LsmKv.Foundation.Bytes
import LsmKv.Foundation.Frames
import LsmKv.Foundation.SortedMap
import LsmKv.Foundation.Versions
import LsmKv.Foundation.Histories
import LsmKv.Foundation.Volume
import LsmKv.Error
import LsmKv.Fs
import LsmKv.FsQuiet
import LsmKv.Record
import LsmKv.Header
import LsmKv.Env
import LsmKv.Wal
import LsmKv.Manifest
import LsmKv.MemTable
import LsmKv.Bloom
import LsmKv.SsTable
import LsmKv.Compaction
import LsmKv.Scan
import LsmKv.Db
import LsmKv.Stock
import LsmKv.WalLog
import LsmKv.WalQuiet
import LsmKv.WalResume
import LsmKv.Runs
import LsmKv.ScanMerge
import LsmKv.Compacted
import LsmKv.SsTableLayout
import LsmKv.SsTableRead
import LsmKv.BlockCache
import LsmKv.ManifestLog
import LsmKv.ManifestQuiet
import LsmKv.Reading
import LsmKv.Layout
import LsmKv.Flush
import LsmKv.Compact
import LsmKv.Recover
import LsmKv.Migrate
import LsmKv.MigrateCrash
import LsmKv.Serving
import LsmKv.Standing
import LsmKv.Engine
import LsmKv.Sequential
import LsmKv.LogFiles
import LsmKv.ManifestCrash
import LsmKv.Sections
import LsmKv.System
import LsmKv.Backing
import LsmKv.Effects
import LsmKv.Failures
import LsmKv.Ledger
import LsmKv.Schedules
import LsmKv.Levels
import LsmKv.Cuts
import LsmKv.Snapshots
import LsmKv.Crash
import LsmKv.GoingBack
import LsmKv.RecordCodec
import LsmKv.MemTables
import LsmKv.ScanErrors
import LsmKv.ZeroTail
import LsmKv.ShortReads
import LsmKv.Lengths
import LsmKv.Returned
import LsmKv.Passages
import LsmKv.CompactionEnds
import LsmKv.Noted
import LsmKv.Seen
import LsmKv.ArbitraryBytes
import LsmKv.Migrated
import LsmKv.Steady
import LsmKv.RefusedWrites
import LsmKv.Foundation.Blocks
import LsmKv.RunSelection
import LsmKv.Membership
import LsmKv.CacheSharing
import LsmKv.CompactionCrash
import LsmKv.Names
import LsmKv.TableIds
import LsmKv.Foundation.Interrupted
import LsmKv.FlushFailures
import LsmKv.Foundation.Links
import LsmKv.Checkpoint
import LsmKv.Apart
import LsmKv.Copying
import LsmKv.Copies
import LsmKv.Foundation.Waiting
import LsmKv.Progress
import LsmKv.Workers
import LsmKv.PendingWork
import LsmKv.Shutdown
import LsmKv.Foundation.Piles
import LsmKv.Strata
import LsmKv.Lifetimes
