import Hermes.Clock.CausalOrder
import Hermes.Raft.CommitQuorum
import Hermes.Raft.Proposals
import Hermes.Raft.VoteRule
import Hermes.Raft.LogSlices
import Hermes.Raft.SnapshotGaps
import Hermes.Raft.Persistence
import Hermes.Membership.Refutation
import Hermes.Storage.Wal.Discarding
import Hermes.Storage.Wal.Numbering
import Hermes.Storage.Wal.SegmentOrder
import Hermes.Storage.Wal.Fsynced
import Hermes.Storage.TableIndex
import Hermes.Storage.BloomMembership
import Hermes.Storage.NewestWins
import Hermes.Storage.Levels
import Hermes.Storage.ReadOrder
import Hermes.Storage.Scan
import Hermes.Storage.Snapshots
import Hermes.Storage.MvccGc
import Hermes.Storage.LogOrder
import Hermes.Storage.Shutdown
import Hermes.Server.Reads
import Hermes.Server.Pairing
import Hermes.Server.Commands
import Hermes.Server.PrefixScan
import Hermes.Consistency.Counters
import Hermes.Consistency.AddWins
import Hermes.Consistency.DistLock
import Hermes.Consistency.Recording
import Hermes.Consistency.CheckerSoundness
import Hermes.Consistency.FalseAlarms
import Hermes.Txn.Tso
import Hermes.Txn.Decisions
import Hermes.Txn.Serializability
import Hermes.Txn.Saga
import Hermes.Cdc.Operations
import Hermes.RateLimit.TokenBucket
import Hermes.Partition.Disruption
import Hermes.Partition.Ranges
import Hermes.Partition.Identifiers
import Hermes.Server.Placement
import Hermes.Queries.Scans
import Hermes.Queries.Aggregates
import Hermes.Chaos.Completion
import Hermes.RateLimit.CircuitBreaker
import Hermes.Chaos.Jepsen
