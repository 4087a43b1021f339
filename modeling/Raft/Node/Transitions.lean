import Raft.Node.Leading

/-!
# State transitions and elections

Stepping down, standing for election, leading, and the handling of vote requests
and their answers.
-/

namespace Raft

variable {ι : Type}

namespace Node

variable [DecidableEq ι]

variable (n : Node ι)

def drainPendingReads : Node ι :=
  { n with
    readsDone := n.readsDone ++ (n.pendingReads ++ n.waitingReads).map fun r => (r, none)
    pendingReads := []
    waitingReads := []
    readBatchAcks := none }

def applyFollowerTransition (leaderID : Option ι) : Node ι :=
  -- a transfer being received is kept only under the same leader
  let changed := n.state ≠ .follower ∨ n.leaderID ≠ leaderID
  let n := { n with
    state := .follower
    leaderID := leaderID
    nextIndex := fun _ => none
    matchIndex := fun _ => none
    inflight := fun _ => 0
    snapshotInflight := none
    transferTarget := none
    transferElapsed := 0
    pendingConfigIndex := 0
    capEntryPending := 0
    quorumEntryPending := 0
    termStartIndex := 0
    leaderNopCommitted := false
    quorumAcks := []
    leaderQuorumElapsed := 0
    departing := []
    snapshots := if changed then { n.snapshots with pendingSnap := none } else n.snapshots }
  n.drainPendingReads.resetElectionTimeout

def becomeFollower (term : Nat) (leaderID : Option ι) : Node ι :=
  let n := if n.currentTerm < term then n.saveTerm term none else n
  n.applyFollowerTransition leaderID

/-- Asks every voting peer for its vote; a pre-vote asks for the next term. -/
def broadcastRequestVote (preVote : Bool) : Node ι :=
  let req : RequestVoteRequest ι :=
    { term := if preVote then n.currentTerm + 1 else n.currentTerm
      candidateID := n.cfg.id
      lastLogIndex := n.log.lastLogIndex
      lastLogTerm := n.log.lastLogTerm
      preVote := preVote }
  n.sendAll (((n.membership.peers.filter (·.voter)).map (·.id)).map fun peer =>
    .requestVote n.asker peer req)

variable [Sized ι]

def becomeLeader : Node ι :=
  let nextIdx := n.log.lastLogIndex + 1
  let isPeer := fun p : ι => (n.membership.peers.map (·.id)).contains p
  let n := { n with
    state := .leader
    leaderID := some n.cfg.id
    heartbeatElapsed := 0
    leaderNopCommitted := false
    quorumAcks := []
    leaderQuorumElapsed := 0
    departing := []
    nextIndex := fun p => if isPeer p then some nextIdx else none
    matchIndex := fun p => if isPeer p then some 0 else none
    inflight := fun _ => 0
    snapshotInflight := some []
    peerFailures := fun _ => 0
    peerDown := []
    log := (n.log.append [⟨nextIdx, n.currentTerm, .noop⟩]).2
    termStartIndex := nextIdx }
  let n : Node ι := n.broadcastHeartbeat.maybeAdvanceCommit
  -- a joint stage that is committed already is closed by the new leader
  if n.membership.jointOld.isSome ∧ n.membership.configIndex ≤ n.commitIndex then
    n.appendFinaliseEntry n.membership.jointNew n.membership.jointIncludeSelf
      n.membership.jointSelfVoter
  else n

/-- What a candidate does once its term and its own vote are on disk. -/
def campaign (term : Nat) : Node ι :=
  if n.state ≠ .candidate ∨ n.currentTerm ≠ term then n
  else if n.membership.isSingleVoter then n.becomeLeader
  else n.broadcastRequestVote false

def becomeCandidate : Node ι :=
  let newTerm := n.currentTerm + 1
  let n := n.saveTerm newTerm (some n.cfg.id)
  let seq := n.log.nextSeq
  let n := { n with
    state := .candidate
    leaderID := none
    nextIndex := fun _ => none
    matchIndex := fun _ => none
    receivedVoteSet := [] }
  -- nobody is asked before the own vote is on disk
  n.resetElectionTimeout.afterWrite seq (.campaign newTerm) (·.campaign newTerm)

def becomePreCandidate : Node ι :=
  let n := { n with
    state := .preCandidate
    leaderID := none
    nextIndex := fun _ => none
    matchIndex := fun _ => none
    receivedVoteSet := [] }
  let n := n.resetElectionTimeout
  if n.membership.isSingleVoter then n.becomeCandidate else n.broadcastRequestVote true

def triggerElection : Node ι :=
  if n.state = .candidate then n.becomeCandidate else n.becomePreCandidate

def replyVote (dst : Asker ι) (req : RequestVoteRequest ι) (resp : RequestVoteResponse) : Node ι :=
  n.send (.requestVoteReply n.cfg.id dst req resp)

def replyVoteWhenDurable (dst : Asker ι) (req : RequestVoteRequest ι) (granted : Bool) : Node ι :=
  let resp : RequestVoteResponse := ⟨n.currentTerm, granted⟩
  n.afterWrite (n.sendGate 0) (.requestVoteReply dst req resp) (·.replyVote dst req resp)

def handleRequestVote (src : Asker ι) (req : RequestVoteRequest ι) : Node ι :=
  let logOK := n.log.isUpToDate req.lastLogIndex req.lastLogTerm
  if req.preVote then
    -- a pre-vote changes nothing, and is refused while there is a leader
    let heardFromLeader := n.state = .leader ∨
      n.state = .follower ∧ n.electionElapsed < n.electionTimeout
    let granted := n.membership.voter && decide (n.currentTerm < req.term) && logOK &&
      !decide heardFromLeader
    n.replyVote src req ⟨n.currentTerm, granted⟩
  else if n.currentTerm < req.term then
    if !n.membership.voter then
      -- the term is taken over without a vote as well
      ((n.saveTerm req.term none).applyFollowerTransition none).replyVoteWhenDurable src req false
    else
      -- term and vote are one write
      ((n.saveTerm req.term (if logOK then some req.candidateID else none)).applyFollowerTransition
        none).replyVoteWhenDurable src req logOK
  else if req.term < n.currentTerm then n.replyVoteWhenDurable src req false
  else if !n.membership.voter then n.replyVoteWhenDurable src req false
  else
    let alreadyVoted := n.votedFor ≠ none ∧ n.votedFor ≠ some req.candidateID
    if ¬ alreadyVoted ∧ logOK then
      (n.saveTerm req.term (some req.candidateID)).resetElectionTimeout.replyVoteWhenDurable
        src req true
    else n.replyVoteWhenDurable src req false

def recordVote (peer : ι) : Node ι :=
  { n with receivedVoteSet := peer :: n.receivedVoteSet }

def handleVoteResult (peer : ι) (req : RequestVoteRequest ι) (resp : RequestVoteResponse) :
    Node ι :=
  if req.preVote then
    if n.state ≠ .preCandidate ∨ req.term ≠ n.currentTerm + 1 then n
    else if n.currentTerm < resp.term then n.becomeFollower resp.term none
    else if resp.voteGranted then
      let n := n.recordVote peer
      if n.membership.electionWon n.receivedVoteSet then n.becomeCandidate else n
    else n
  else if n.currentTerm < resp.term then n.becomeFollower resp.term none
  else if n.state ≠ .candidate ∨ resp.term < n.currentTerm then n
  else if resp.voteGranted then
    let n := n.recordVote peer
    if n.membership.electionWon n.receivedVoteSet then n.becomeLeader else n
  else n

def handleTimeoutNow (req : TimeoutNowRequest ι) : Node ι :=
  if req.term < n.currentTerm then n
  else
    let n := if n.currentTerm < req.term then n.becomeFollower req.term none else n
    -- that the node has a vote is not checked
    if n.cfg.witness then n else n.becomeCandidate

end Node

end Raft
