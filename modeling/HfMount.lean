import HfMount.Lib.Transition
import HfMount.Lib.Interleaving
import HfMount.Lib.Slice
import HfMount.Lib.SlashPath
import HfMount.Lib.CheckedWord
import HfMount.Lib.BlockCode
import HfMount.Basic
import HfMount.Lib.Utf8
import HfMount.Lib.LittleEndian
import HfMount.Encryption.Base91
import HfMount.Encryption.Base91Blocks
import HfMount.Prefetch.Buffer
import HfMount.Prefetch.Coherence
import HfMount.Inode.Entry
import HfMount.Inode.Table
import HfMount.Inode.WellFormed
import HfMount.Lib.Worklist
import HfMount.Inode.Treelike
import HfMount.Inode.Subtree
import HfMount.Inode.Worklists
import HfMount.Inode.Relocate
import HfMount.Inode.Eviction
import HfMount.Poll.Diff
import HfMount.Poll.Removal
import HfMount.Poll.DirtyFiles
import HfMount.Poll.Reachable
import HfMount.Poll.Round
import HfMount.Poll.Interval
import HfMount.Poll.Follow
import HfMount.Flush.DeleteQueue
import HfMount.Flush.StagedFile
import HfMount.Flush.Effects
import HfMount.Flush.NoLostWrite
import HfMount.Flush.StagingCache
import HfMount.Flush.CacheFlag
import HfMount.Flush.CacheTruth
import HfMount.Flush.CurrentContent
import HfMount.Flush.StagedLevels
import HfMount.Flush.StagedSizes
import HfMount.Flush.DirtySize
import HfMount.Vfs.Remote
import HfMount.Vfs.Rename
import HfMount.Vfs.Calls
import HfMount.Vfs.DeleteWindow
import HfMount.Vfs.Nodes
import HfMount.Vfs.Validated
import HfMount.Vfs.Renamed
import HfMount.Vfs.LinkCounts
import HfMount.Vfs.TableRuns
import HfMount.Vfs.RenameRuns
import HfMount.Vfs.DirectoryRename
import HfMount.Vfs.Leaves
import HfMount.Vfs.Revalidate
import HfMount.Vfs.Listing
import HfMount.Vfs.StaleViews
import HfMount.Prefetch.Answers
import HfMount.Nfs.HandlePool
import HfMount.Nfs.Adapter
import HfMount.Nfs.Bound
import HfMount.Nfs.Coherent
import HfMount.Nfs.Writes
import HfMount.Nfs.CurrentReads
import HfMount.Streaming.Channel
import HfMount.Streaming.Programs
import HfMount.Streaming.Calls
import HfMount.Streaming.Hooks
import HfMount.Vfs.DirectoryRename
import HfMount.Encryption.Base91RoundTrip
import HfMount.Encryption.Canonical
import HfMount.Encryption.Path
import HfMount.Encryption.PathRoundTrip
import HfMount.Encryption.StoredNames
import HfMount.Hub.ListTree
import HfMount.Hub.RemoteView
import HfMount.Inode.LastRelease
import HfMount.Vfs.Handles
import HfMount.Vfs.UnlinkCalls
import HfMount.Vfs.NamedFiles
import HfMount.Vfs.UnlinkSafe
import HfMount.Flush.StagingGc
import HfMount.Flush.WritersKept
import HfMount.Vfs.References
import HfMount.Vfs.ReferenceCounts
import HfMount.Vfs.ReferencesKept
import HfMount.Vfs.EvictionSafe
import HfMount.Lib.PathStore
import HfMount.Vfs.Overlay
import HfMount.Vfs.OverlayFiles
import HfMount.Vfs.OverlayKept
import HfMount.Follow.SseParser
import HfMount.Follow.SseBlocks
import HfMount.Poll.FollowBatches
import HfMount.Prefetch.Downloads
import HfMount.Prefetch.FullReads
import HfMount.Vfs.InstalledListing
import HfMount.Vfs.LocalEntries
import HfMount.Vfs.ListedChildren
import HfMount.Vfs.ReflectedListing
import HfMount.Vfs.LookupCalls
import HfMount.Vfs.DeletedNames
import HfMount.Vfs.MissedNames
import HfMount.Streaming.RenamedWrites
import HfMount.Streaming.HookCalls
import HfMount.Streaming.HookEntries
import HfMount.Streaming.Shutdown
import HfMount.Cache.Disk
import HfMount.Encryption.Content
import HfMount.Reconstruction.Client
import HfMount.Lib.Sequential
import HfMount.Streaming.Chain
import HfMount.Streaming.LastCommit
import HfMount.Vfs.BudgetExact
import HfMount.Vfs.FailedCalls
import HfMount.Vfs.OverlayInStep
import HfMount.Vfs.LruCandidates
import HfMount.Encryption.Base91Bound
import HfMount.Nfs.Readdir
import HfMount.Vfs.FuseReaddir
import HfMount.Hub.LinkHeader
import HfMount.Hub.HttpDownload
import HfMount.Nfs.PoolRuns
import HfMount.Vfs.ProbedRuns
import HfMount.Poll.CompleteRound
import HfMount.Vfs.SubtreeGuards
import HfMount.Lib.BatchWorker
import HfMount.Vfs.DirtyMarks
import HfMount.Flush.Batch
import HfMount.Flush.Pipeline
import HfMount.Flush.Requests
import HfMount.Flush.Accounted
import HfMount.Flush.NoFileForgotten
import HfMount.Flush.ShutdownDrain
import HfMount.Flush.DeletesKept
import HfMount.Lib.PercentCode
import HfMount.Daemon.PidFiles
import HfMount.Hub.Urls
import HfMount.Lib.LockTable
import HfMount.Vfs.LockTables
