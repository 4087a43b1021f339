import Raft.Log.Basic
import Raft.Quorum

/-!
# The state of a node

A node is a single event loop with a log overlay, a storage writer, an apply
loop and a few goroutines around it.  `Core` collects the fields that decide
what the node promises to others: its term and vote, its log, its progress
table, the membership it counts under and the answers it is holding back.
`Node` adds the timers, throttles and transfers.

Messages carry the incarnation of the node that sent the request they belong
to: an answer only ever reaches the goroutine that asked, and that goroutine
does not survive a restart.

Left out are client promises, read leases, metrics, events and logging.
-/

namespace Raft

variable {ι : Type}

structure RequestVoteRequest (ι : Type) where
  term : Nat
  candidateID : ι
  lastLogIndex : Nat
  lastLogTerm : Nat
  preVote : Bool
  deriving DecidableEq, Repr

structure RequestVoteResponse where
  term : Nat
  voteGranted : Bool
  deriving DecidableEq, Repr

/-- `readBarrier` is the generation of a read barrier, 0 for none. -/
structure AppendEntriesRequest (ι : Type) where
  term : Nat
  leaderID : ι
  prevLogIndex : Nat
  prevLogTerm : Nat
  entries : List (LogEntry ι)
  leaderCommit : Nat
  readBarrier : Nat
  deriving DecidableEq, Repr

structure AppendEntriesResponse where
  term : Nat
  success : Bool
  conflictIndex : Nat
  conflictTerm : Nat
  deriving DecidableEq, Repr

/-- One chunk of a snapshot: `len` bytes at `offset` of the framed `snap`. -/
structure InstallSnapshotRequest (ι : Type) where
  term : Nat
  leaderID : ι
  position : SnapshotMeta
  offset : Nat
  len : Nat
  last : Bool
  snap : Snapshot ι
  deriving DecidableEq, Repr

structure InstallSnapshotResponse where
  term : Nat
  deriving DecidableEq, Repr

structure TimeoutNowRequest (ι : Type) where
  term : Nat
  leaderID : ι
  deriving DecidableEq, Repr

structure ReadIndexRequest where
  term : Nat
  deriving DecidableEq, Repr

/-- Who asked: the node and its incarnation. -/
structure Asker (ι : Type) where
  id : ι
  boot : Nat
  deriving DecidableEq, Repr

/-- A message.  An answer goes back to the asker together with the request it answers. -/
inductive Msg (ι : Type)
  | requestVote (src : Asker ι) (dst : ι) (req : RequestVoteRequest ι)
  | requestVoteReply (src : ι) (dst : Asker ι) (req : RequestVoteRequest ι)
      (resp : RequestVoteResponse)
  | appendEntries (src : Asker ι) (dst : ι) (req : AppendEntriesRequest ι)
  | appendEntriesReply (src : ι) (dst : Asker ι) (req : AppendEntriesRequest ι)
      (resp : AppendEntriesResponse)
  | installSnapshot (src : Asker ι) (dst : ι) (req : InstallSnapshotRequest ι)
  | installSnapshotReply (src : ι) (dst : Asker ι) (req : InstallSnapshotRequest ι)
      (resp : InstallSnapshotResponse)
  | timeoutNow (dst : ι) (req : TimeoutNowRequest ι)
  | readIndex (dst : ι) (req : ReadIndexRequest) (read : Nat)
  deriving DecidableEq, Repr

/-- Work that waits for a storage write; `proposals` is the clean-up that runs only if the write
fails. -/
inductive Deferred (ι : Type)
  | requestVoteReply (dst : Asker ι) (req : RequestVoteRequest ι) (resp : RequestVoteResponse)
  | appendEntriesReply (dst : Asker ι) (req : AppendEntriesRequest ι)
      (resp : AppendEntriesResponse)
  | installSnapshotReply (dst : Asker ι) (req : InstallSnapshotRequest ι)
      (resp : InstallSnapshotResponse)
  | campaign (term : Nat)
  | proposals (indices : List Nat)
  deriving DecidableEq, Repr

structure DeferredWrite (ι : Type) where
  seq : Nat
  work : Deferred ι
  deriving DecidableEq, Repr

structure ApplyOutcome where
  value : List UInt8
  err : Bool
  deriving DecidableEq, Repr

/-- What a node is built with.  `rand` is the stream of random timeouts, `stateMachine` what
the state machine answers to an entry after those before it. -/
structure Config (ι : Type) where
  id : ι
  peers : List (PeerConfig ι)
  voter : Bool
  witness : Bool
  checkQuorum : Bool
  preferredLeader : Option ι
  maxInflightRPCs : Nat
  maxLogEntriesPerRPC : Nat
  maxBytesPerRPC : Nat
  maxUnstableLogBytes : Int
  minCommitZones : Nat
  zones : ι → Option Nat
  commitQuorum : Nat
  maxClientTableSize : Nat
  snapshotThreshold : Nat
  trailingLogs : Nat
  snapshotChunkSize : Nat
  snapshotLen : Snapshot ι → Nat
  electionMinTicks : Nat
  electionMaxTicks : Nat
  heartbeatTimeout : Nat
  rand : Nat → Nat
  batchWriter : Bool
  commitRecorder : Bool
  stateMachine : List (LogEntry ι) → LogEntry ι → ApplyOutcome
  durableSM : Bool

/-- The membership a node counts under; the node itself is not among the peers. -/
structure Membership (ι : Type) where
  peers : List (PeerConfig ι)
  voter : Bool
  jointOld : Option (List (PeerConfig ι))
  jointNew : List (PeerConfig ι)
  jointIncludeSelf : Bool
  jointSelfVoter : Bool
  jointSelfVoterOld : Bool
  membershipWitness : Bool
  base : MembershipState ι
  configIndex : Nat
  commitQuorumApplied : Nat
  commitQuorumLatest : Nat
  commitQuorumAgreed : Bool
  clientTableCap : Nat
  clientTableCapReplicated : Bool
  clientTableCapAgreed : Bool
  baseClientTableCap : Option Nat
  deriving DecidableEq, Repr

/-- What the apply loop reports for one index; the command is absent when the entry could not be
read. -/
structure ApplyResult (ι : Type) where
  index : Nat
  val : List UInt8
  err : Bool
  configCmd : Option (ConfigOp ι)
  cmd : Option (Command ι)
  deriving DecidableEq, Repr

/-- A local snapshot asked of the apply loop. -/
structure SnapshotTrigger (ι : Type) where
  position : SnapshotMeta
  clientTable : List ClientRecord
  membership : MembershipState ι
  clientTableCap : Option Nat
  deriving DecidableEq, Repr

/-- The apply loop: channels, the last index applied, its client table, and what it has handed
on. -/
structure ApplyLoop (ι : Type) where
  commitNotify : Option Nat
  restore : Option (Snapshot ι)
  snapshotTrigger : Option (SnapshotTrigger ι)
  localLastApplied : Nat
  clientTable : ClientLRU
  sm : List (LogEntry ι)
  results : List (ApplyResult ι)
  deriving DecidableEq

structure PartialSnapshot (ι : Type) where
  snap : Snapshot ι
  position : SnapshotMeta
  expectedOff : Nat
  deriving DecidableEq, Repr

structure SnapshotAck (ι : Type) where
  index : Nat
  dst : Asker ι
  req : InstallSnapshotRequest ι
  resp : InstallSnapshotResponse
  deriving DecidableEq, Repr

/-- How the writing of a captured snapshot ends. -/
inductive SnapshotWrite (ι : Type)
  | saved
  | refused
  | cut (written : List (LogEntry ι))
  deriving DecidableEq, Repr

def SnapshotWrite.isSaved : SnapshotWrite ι → Bool
  | saved => true
  | _ => false

structure SnapshotResult (ι : Type) where
  trigger : SnapshotTrigger ι
  err : Bool
  deriving DecidableEq, Repr

/-- Snapshots on their way: local ones and received ones being saved, and the results of
these. -/
structure Snapshots (ι : Type) where
  snapshotting : Bool
  writing : List (SnapshotTrigger ι × List (LogEntry ι))
  results : List (SnapshotResult ι)
  pendingSnap : Option (PartialSnapshot ι)
  installing : List (Snapshot ι)
  installed : List (Snapshot ι × Bool)
  installingSnap : Nat
  snapInstallAck : Option (SnapshotAck ι)
  deriving DecidableEq, Repr

/-- A peer on its way out: the entry that removed it and how long ago. -/
structure Departure (ι : Type) where
  peer : ι
  index : Nat
  elapsed : Nat
  deriving DecidableEq, Repr

/-- The fields that decide what a node promises.  An absent key of `nextIndex` or `matchIndex` reads
as 0. -/
structure Core (ι : Type) where
  cfg : Config ι
  boot : Nat
  currentTerm : Nat
  votedFor : Option ι
  state : State
  commitIndex : Nat
  nextIndex : ι → Option Nat
  matchIndex : ι → Option Nat
  receivedVoteSet : List ι
  termStartIndex : Nat
  membership : Membership ι
  log : RaftLog ι
  deferredWrites : List (DeferredWrite ι)
  unsafeTermSeq : Nat
  completedWriteSeq : Nat
  apply : ApplyLoop ι
  departing : List (Departure ι)
  fatalErr : Bool
  out : List (Msg ι)

/-- A node: its core, and everything that only decides when it acts. -/
structure Node (ι : Type) extends Core ι where
  leaderID : Option ι
  clientTable : ClientLRU
  durableTerm : Nat
  lastApplied : Nat
  recordedCommit : Nat
  electionElapsed : Nat
  heartbeatElapsed : Nat
  electionTimeout : Nat
  draws : Nat
  inflight : ι → Nat
  snapshotInflight : Option (List ι)
  peerFailures : ι → Nat
  peerDown : List ι
  pendingConfigIndex : Nat
  capEntryPending : Nat
  quorumEntryPending : Nat
  leaderNopCommitted : Bool
  quorumAcks : List ι
  leaderQuorumElapsed : Nat
  transferTarget : Option ι
  transferElapsed : Nat
  readBatchGen : Nat
  readBatchAcks : Option (List ι)
  readBatchIndex : Nat
  pendingReads : List Nat
  waitingReads : List Nat
  readsDone : List (Nat × Option Nat)
  snapshots : Snapshots ι

end Raft
