import Driftless.Raft.Types
import Driftless.Raft.Log
import Driftless.Raft.Node
import Driftless.Raft.Server
import Driftless.Raft.RoleLoop
import Driftless.Raft.Backoff
import Driftless.Raft.Votes
import Driftless.Raft.Waiters
import Driftless.Raft.Pointers
import Driftless.Raft.StateMachine
import Driftless.Raft.Restart
import Driftless.Consensus.Basic
import Driftless.Consensus.Protocol
import Driftless.Raft.Cluster
import Driftless.Raft.FullLog
import Driftless.Raft.Mirror
import Driftless.Raft.Refinement
import Driftless.Dispatch.Dispatcher
import Driftless.Dispatch.Markers
import Driftless.Dispatch.Acknowledge
import Driftless.Raft.Exchange
import Driftless.Raft.Compaction
import Driftless.Raft.Match
import Driftless.Raft.Pair
import Driftless.Raft.Answers
import Driftless.Raft.Install
import Driftless.Dispatch.Replicas
import Driftless.Pipeline.Store
import Driftless.Dispatch.Commands
import Driftless.Pipeline.System
import Driftless.Pipeline.References
import Driftless.Pipeline.Status
import Driftless.Raft.Cached
import Driftless.Raft.Commit
import Driftless.Raft.Bounds
import Driftless.Dispatch.Publish
import Driftless.Dispatch.Replay
import Driftless.Pipeline.Drain
import Driftless.Raft.Peers
import Driftless.Cooldown
import Driftless.Observer.Alerts
import Driftless.Observer.Dedup
import Driftless.Lincheck.Main
import Driftless.Observer.Leaderless
import Driftless.Lincheck.Verdict
import Driftless.Observer.Polling
import Driftless.Observer.Metrics
import Driftless.Raft.ApplyLoop
import Driftless.Raft.SnapshotLoop
import Driftless.Raft.Safety
import Driftless.Pipeline.Results
import Driftless.Pipeline.Recovery
import Driftless.Lincheck.Polls
import Driftless.Discovery.Registry
import Driftless.Discovery.Coordinator
import Driftless.Discovery.Connections
import Driftless.Dispatch.Transport
import Driftless.Bench.Scan
import Driftless.Bench.Recovery
import Driftless.Bench.Tally
