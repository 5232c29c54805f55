import Scylla.Lib.StateExcept
import Scylla.Lib.Word
import Scylla.Lib.BinaryFloat
import Scylla.Lib.MaxMerge
import Scylla.Raft.Basic
import Scylla.Raft.Log
import Scylla.Raft.Tracker
import Scylla.Raft.Fsm.Defs
import Scylla.Raft.Fsm.Leader
import Scylla.Raft.Fsm.Election
import Scylla.Raft.Fsm.Step
import Scylla.Raft.Fsm.Frame
import Scylla.Raft.Group
import Scylla.Raft.JointConfig
import Scylla.Raft.ApplyOrder
import Scylla.Raft.LogMatching
import Scylla.Types.ComparableBytes
import Scylla.Mutation.Row
import Scylla.Mutation.Merge
import Scylla.Mutation.Compactor
import Scylla.Mutation.Purge
import Scylla.Mutation.Difference
import Scylla.Lib.IntervalSup
import Scylla.Mutation.RangeTombstoneList
import Scylla.Raft.LogConfig
import Scylla.Lib.Packing
import Scylla.Sstables.Compress
import Scylla.Lib.LowerBound
import Scylla.Dht.Token
import Scylla.Lib.ScaledFloor
import Scylla.Dht.Sharder
import Scylla.Dht.ShardRanges
import Scylla.Dht.ShardContract
import Scylla.Locator.TabletIdMap
import Scylla.Locator.TabletMap
import Scylla.Locator.SiblingSets
import Scylla.Locator.Resize
import Scylla.Lib.Intervals
import Scylla.Commitlog.Replay
import Scylla.Commitlog.Writer
import Scylla.Raft.Votes
import Scylla.Lib.Rank
import Scylla.Raft.Commit
import Scylla.Raft.LogInvariant
import Scylla.Lib.Combine
import Scylla.Mutation.Counters
import Scylla.Serialization.Vint
import Scylla.Sstables.BtiNodeSink
import Scylla.Types.EscapeZeros
import Scylla.Raft.Fsm.Progress
import Scylla.Lib.Ballots
import Scylla.Raft.Fsm.VoteSafety
import Scylla.Raft.Fsm.Mandate
import Scylla.Raft.Cluster
import Scylla.Types.EscapeOrder
import Scylla.Mutation.Collection
import Scylla.Mutation.Partition
import Scylla.Mutation.PartitionMerge
import Scylla.Mutation.Stream
import Scylla.Mutation.StreamCompactor
