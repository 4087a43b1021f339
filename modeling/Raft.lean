import Raft.Apply.ExactlyOnce
import Raft.Apply.GapFree
import Raft.Apply.Lockstep
import Raft.ClientTable.Handles
import Raft.Easyraft.Client
import Raft.Easyraft.Leases
import Raft.Easyraft.Refusals
import Raft.Easyraft.Scan
import Raft.Easyraft.Totals
import Raft.Easyraft.Watcher
import Raft.Election.Safety
import Raft.Election.Candidates
import Raft.Log.Overlay
import Raft.Log.VoteGate
import Raft.Membership.Departures
import Raft.Membership.Inspect
import Raft.Membership.OneChange
import Raft.Membership.Policy
import Raft.Proposals.Promises
import Raft.Quorum
import Raft.Reads.Attached
import Raft.Reads.Leases
import Raft.Reads.Wakeups
import Raft.Replication.Backtracking
import Raft.Replication.CommittedPrefix
import Raft.Replication.FollowerCommit
import Raft.Replication.FullReplica
import Raft.Replication.Matching
import Raft.Snapshot.Boundary
import Raft.Snapshot.Durable
import Raft.Snapshot.Restart
import Raft.Snapshot.Save
import Raft.Snapshot.Stream
import Raft.Snapshot.Transfer
import Raft.Storage.Segments
import Raft.Storage.Writer
import Raft.Transport.Heartbeats
import Raft.Wire.Commands
import Raft.Wire.Frames
import Raft.Wire.Submissions
