import SaunaFS.Changelog.Lossless
import SaunaFS.Chunks.EndangeredQueue
import SaunaFS.Chunks.PartLengths
import SaunaFS.Chunks.RedundancyLevel
import SaunaFS.Chunks.StaleCopies
import SaunaFS.Chunks.Worker
import SaunaFS.Chunks.WriteGrants
import SaunaFS.Chunkserver.OpenChunks
import SaunaFS.Chunkserver.PeerSafety
import SaunaFS.Chunkserver.ReadService
import SaunaFS.Chunkserver.WriteChain
import SaunaFS.Exports
import SaunaFS.Inodes.Reuse
import SaunaFS.IntervalTree
import SaunaFS.Locks.Granted
import SaunaFS.Locks.Replication
import SaunaFS.Locks.WakeUp
import SaunaFS.Mount.GroupCache
import SaunaFS.Mount.MasterConnection
import SaunaFS.Mount.PendingRuns
import SaunaFS.Mount.ReadCacheMemory
import SaunaFS.Mount.ReadPlan
import SaunaFS.Mount.ReadaheadComplete
import SaunaFS.Mount.SymlinkCache
import SaunaFS.Mount.WriteCache
import SaunaFS.Namespace.Accounts
import SaunaFS.Namespace.AclStorage
import SaunaFS.Namespace.Append
import SaunaFS.Namespace.Checksums
import SaunaFS.Namespace.PosixAccess
import SaunaFS.Namespace.Rooted
import SaunaFS.Namespace.Statistics
import SaunaFS.Quota.Replication
import SaunaFS.Shadow.NeverStuck
import SaunaFS.Shadow.Synchronization
import SaunaFS.Tasks.Completion
