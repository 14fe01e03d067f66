import WinBlaze.Core.Model
import WinBlaze.Index.Store
import WinBlaze.Lib.ByteCodec
import WinBlaze.Index.Snapshot
import WinBlaze.Index.SnapshotRoundTrip
import WinBlaze.Index.Storage
import WinBlaze.Lib.Renumber
import WinBlaze.Index.Incremental
import WinBlaze.Index.Merge
import WinBlaze.Core.Scan
import WinBlaze.Index.Repository
import WinBlaze.Native.Bridge
import WinBlaze.Native.AbortedPass
import WinBlaze.Native.UnfinishedRescan
import WinBlaze.Core.Paths
import WinBlaze.Index.IncrementalRuns
import WinBlaze.Scanner.Ntfs.Record
import WinBlaze.Scanner.Ntfs.RecordFits
import WinBlaze.Scanner.Ntfs.RecordRange
import WinBlaze.Lib.IdMap
import WinBlaze.Lib.ParentChain
import WinBlaze.Core.Aggregate
import WinBlaze.Index.Catalog
import WinBlaze.Scanner.Ntfs.Batch
import WinBlaze.Scanner.Ntfs.Dump
import WinBlaze.Scanner.Ntfs.BatchTermination
import WinBlaze.Scanner.Ntfs.Stream
import WinBlaze.Scanner.Ntfs.StreamEmission
import WinBlaze.Scanner.Ntfs.StreamRuns
import WinBlaze.Scanner.Ntfs.BatchResult
import WinBlaze.Scanner.Ntfs.BatchPaths
import WinBlaze.Scanner.Ntfs.StreamOutcomes
import WinBlaze.Scanner.Ntfs.StreamTotals
import WinBlaze.Scanner.Ntfs.StreamPaths
import WinBlaze.Scanner.Ntfs.Agreement
import WinBlaze.Index.Tree
import WinBlaze.Index.TreeTotals
import WinBlaze.Scanner.Ntfs.Interleavings
import WinBlaze.Index.StalePaths
import WinBlaze.Lib.Blocks
import WinBlaze.Lib.FreeRuns
import WinBlaze.Scanner.Ntfs.KeepExtents
import WinBlaze.Scanner.Ntfs.MftBitmap
import WinBlaze.Scanner.Ntfs.ParserThread
import WinBlaze.Scanner.Ntfs.ParserRuns
import WinBlaze.Lib.BitWindow
import WinBlaze.Lib.FirstClaims
import WinBlaze.Scanner.Allocation
import WinBlaze.Scanner.AllocationRuns
import WinBlaze.Lib.OnlineClasses
import WinBlaze.Scanner.Content
import WinBlaze.Scanner.ContentGroups
import WinBlaze.Scanner.Duplicates
import WinBlaze.Scanner.FallbackWorkerRuns
import WinBlaze.Scanner.DirectoryWalk
import WinBlaze.Scanner.FallbackDirectory
import WinBlaze.Scanner.FallbackAccounting
import WinBlaze.Lib.Unfolding
import WinBlaze.Scanner.DirectoryTree
import WinBlaze.Scanner.WalkPool
import WinBlaze.Scanner.WalkRefinement
import WinBlaze.Scanner.FallbackRefinement
import WinBlaze.Scanner.SequentialWalk
import WinBlaze.Scanner.WalkAgreement
import WinBlaze.Scanner.FallbackProgress
import WinBlaze.Scanner.DirectoryProgress
import WinBlaze.Index.DirectoryRemap
import WinBlaze.Core.AggregateTotals
import WinBlaze.Index.TreeAgreement
import WinBlaze.Index.SnapshotVersionOne
import WinBlaze.Native.SessionState
import WinBlaze.Native.ConcurrentSessions
import WinBlaze.Native.PersistGate
import WinBlaze.Lib.Tally
import WinBlaze.Native.UiForwarder
import WinBlaze.Scanner.Ntfs.Reemission
import WinBlaze.Native.ExtensionBreakdown
import WinBlaze.Lib.PrivateBatches
import WinBlaze.Scanner.Pipeline
import WinBlaze.Scanner.DeliveryOrder
import WinBlaze.Native.ForwardedPaths
import WinBlaze.Lib.Offsets
import WinBlaze.Index.CombinedTree
import WinBlaze.Index.CombinedTotals
import WinBlaze.Index.CombinedCatalogs
import WinBlaze.Index.CatalogTimes
import WinBlaze.Lib.ByteWords
import WinBlaze.Scanner.Ntfs.DataRuns
import WinBlaze.Lib.Streams
import WinBlaze.Scanner.Ntfs.Fixups
import WinBlaze.Scanner.Ntfs.VolumeReader
import WinBlaze.Scanner.Ntfs.Geometry
import WinBlaze.Scanner.Ntfs.ValidLength
import WinBlaze.Scanner.Ntfs.TableAccess
import WinBlaze.Scanner.Ntfs.TableSafety
import WinBlaze.Scanner.Ntfs.RecordScan
import WinBlaze.Lib.Selection
import WinBlaze.Index.LargestFiles
import WinBlaze.Index.ChildPages
import WinBlaze.Index.TreeSearch
import WinBlaze.Index.Query
import WinBlaze.Index.FileTable
import WinBlaze.Lib.Attempts
import WinBlaze.Index.CatalogImport
import WinBlaze.Index.ImportSafety
import WinBlaze.Index.ImportLayout
import WinBlaze.Index.ImportedTree
import WinBlaze.Core.UpdateManifest
import WinBlaze.Scanner.FallbackBudget
import WinBlaze.Scanner.DirectoryGraph
import WinBlaze.Scanner.WalkTermination
import WinBlaze.Lib.Arenas
import WinBlaze.Scanner.EventDelivery
import WinBlaze.Scanner.EventDeliveryRuns
import WinBlaze.Scanner.DirectoryMetadata
import WinBlaze.Scanner.MetadataChains
import WinBlaze.Lib.OpenRun
import WinBlaze.Scanner.ZeroRanges
import WinBlaze.Index.DisplayPaths
import WinBlaze.Index.Wildcards
import WinBlaze.Index.CatalogExport
import WinBlaze.Index.CatalogRows
import WinBlaze.Lib.SeparatedKeys
import WinBlaze.Index.SpelledTrees
import WinBlaze.Index.ExportedTrees
import WinBlaze.Index.ExportedTables
import WinBlaze.Index.ReopenedLayout
import WinBlaze.Index.ReopenedTrees
import WinBlaze.Index.ReopenedCatalogs
import WinBlaze.Index.ExportedLines
import WinBlaze.Index.ExportedPaths
import WinBlaze.Index.CalendarDates
import WinBlaze.Lib.RecencyList
import WinBlaze.Native.CapacityHints
import WinBlaze.Scanner.ScanRoots
import WinBlaze.Native.HintHistory
import WinBlaze.Index.RecordOrder
import WinBlaze.Scanner.HardLinks
import WinBlaze.Updater.CopyTree
import WinBlaze.Index.StorageHistories
import WinBlaze.UI.DirectoryWatcher
import WinBlaze.Native.EventLog
import WinBlaze.UI.OwnedBackgroundWork
import WinBlaze.Lib.Outlines
import WinBlaze.UI.FolderTree
import WinBlaze.UI.LiveTree
import WinBlaze.Index.JsonValues
import WinBlaze.Index.JsonCatalogs
import WinBlaze.Index.ReopenedJson
import WinBlaze.Lib.Pruning
import WinBlaze.Scanner.ScanRules
import WinBlaze.UI.SnapshotLoads
import WinBlaze.Native.NativeSession
