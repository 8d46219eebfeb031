import Hfdl.Transition
import Hfdl.Int64
import Hfdl.Tally
import Hfdl.Inode
import Hfdl.Relational.Table
import Hfdl.Relational.Transaction
import Hfdl.Relational.Evolution
import Hfdl.Codec.Uvarint
import Hfdl.Store.Model
import Hfdl.Store.Jobs
import Hfdl.Store.Files
import Hfdl.Store.Blocks
import Hfdl.Store.Recover
import Hfdl.Store.Operation
import Hfdl.Store.Change
import Hfdl.Store.Catalogue
import Hfdl.Store.Leasing
import Hfdl.Store.Attended
import Hfdl.Store.Fencing
import Hfdl.Transfer.Interval
import Hfdl.Transfer.IntervalSerde
import Hfdl.Transfer.ProgressBlob
import Hfdl.Transfer.Checkpoint
import Hfdl.Transfer.Stream
import Hfdl.Transfer.Writing
import Hfdl.Transfer.Sequential
import Hfdl.Sched.Chunk
import Hfdl.Sched.Passes
import Hfdl.Store.Progress
import Hfdl.Sched.Runs
import Hfdl.Sched.Budget
import Hfdl.Sched.Staging
import Hfdl.Sched.Forcing
import Hfdl.Store.Listing
import Hfdl.Sched.Manager
import Hfdl.Sched.Wiring
import Hfdl.Sched.Selecting
import Hfdl.Sched.Draining
import Hfdl.Sched.Verifying
import Hfdl.Tune.Controller
import Hfdl.Sched.Autotune
import Hfdl.Sched.Pausing
import Hfdl.Transfer.Workers
import Hfdl.Transfer.Fallback
import Hfdl.Sched.Resetting
import Hfdl.Transfer.KillGate
import Hfdl.Transfer.Stall
import Hfdl.Transfer.Upstreams
import Hfdl.Indexed
import Hfdl.Xet.Reconstruct
import Hfdl.Xet.Streaming
import Hfdl.Xet.Reacquire
import Hfdl.Transfer.IntervalUnion
import Hfdl.Transfer.Exactness
import Hfdl.Store.References
import Hfdl.Store.Recovery
import Hfdl.Sched.Cooldowns
import Hfdl.Fcio.Volume
import Hfdl.Fcio.Pool
import Hfdl.Circular
import Hfdl.Logging.DbSink
import Hfdl.Sched.Offline
import Hfdl.Sched.Serving
import Hfdl.Sched.Hashing
import Hfdl.Sched.Rechunk
import Hfdl.Xet.Boundaries
import Hfdl.Verify.DeSparse
import Hfdl.Filepath
import Hfdl.FileTree
import Hfdl.Cache.SafeJoin
import Hfdl.Relational.Weight
import Hfdl.Xet.ChunkCache
import Hfdl.Sched.Relisting
import Hfdl.Throttle.Bucket
import Hfdl.Fcio.ReadAll
import Hfdl.Sched.Limits
import Hfdl.Codec.Utf8
import Hfdl.Regex
import Hfdl.Sched.Fnmatch
import Hfdl.Interleave
import Hfdl.Xet.Regroup
import Hfdl.Xet.Xorb
import Hfdl.Timeline
import Hfdl.Stats.Windows
import Hfdl.Stats.Registry
import Hfdl.Transfer.Parallelism
import Hfdl.Transfer.CommitGate
import Hfdl.Hfapi.Pagination
import Hfdl.Sched.SourceChoice
import Hfdl.Contents
import Hfdl.Verify.Staged
import Hfdl.Store.Lifecycle
