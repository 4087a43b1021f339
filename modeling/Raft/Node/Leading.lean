import Raft.Node.Basic

/-!
# What a leader sends and commits

Heartbeats, read barriers, replication to one peer, snapshot transfers, and the
advance of the commit index.  A message is built from the state at the time it is
sent and is then in the hands of the network.

A snapshot travels as a sequence of chunks, each sent once the one before it was
answered.  Here the chunks are handed to the network together: every one may
still be lost or delayed, so this only adds runs.
-/

namespace Raft

variable {ι : Type}

/-- A witness gets the shape of an entry, and the contents of configuration
entries only. -/
def stripForWitness (es : List (LogEntry ι)) : List (LogEntry ι) :=
  es.map fun e => if e.command.isConfigEntry then e else { e with command := .noop }

def fitting [Sized ι] (budget : Nat) : Nat → List (LogEntry ι) → List (LogEntry ι)
  | _, [] => []
  | total, e :: rest =>
    let total := total + Sized.len e.command
    if budget < total then [] else e :: fitting budget total rest

/-- Trims entries to a byte budget, keeping at least one; 0 is no budget. -/
def capByBytes [Sized ι] (es : List (LogEntry ι)) (budget : Nat) : List (LogEntry ι) :=
  if budget = 0 then es
  else if (fitting budget 0 es).isEmpty then es.take 1 else fitting budget 0 es

/-- The chunks of a transfer: offset, length, and whether it is the last one.  With size 0 the empty
chunk at the start is sent over and over. -/
def snapshotChunks (len size : Nat) : List (Nat × Nat × Bool) :=
  (List.range (len / size + 1)).map fun k =>
    (k * size, min size (len - k * size), decide (size ≠ 0 ∧ k = len / size))

/-- A snapshot as a witness gets it: the framing without the state machine. -/
def witnessSnapshot (snap : Snapshot ι) : Snapshot ι := { snap with table := [], data := [] }

namespace Node

variable [DecidableEq ι]

def emptyAppend (n : Node ι) (peer : ι) (barrier : Nat) : AppendEntriesRequest ι :=
  let prevIdx := predIndex (lookup n.nextIndex peer)
  { term := n.currentTerm
    leaderID := n.cfg.id
    prevLogIndex := prevIdx
    -- 0 also when the term cannot be looked up
    prevLogTerm := (n.log.termAt prevIdx).getD 0
    entries := []
    leaderCommit := n.commitIndex
    readBarrier := barrier }

def heartbeatPeer (n : Node ι) (peer : ι) : Node ι :=
  n.send (.appendEntries n.asker peer (n.emptyAppend peer 0))

def broadcastHeartbeat (n : Node ι) : Node ι :=
  (n.membership.peers.map (·.id) ++ n.departing.map (·.peer)).foldl heartbeatPeer n

omit [DecidableEq ι] in
theorem broadcastHeartbeat_eq (n : Node ι) : n.broadcastHeartbeat =
    n.sendAll ((n.membership.peers.map (·.id) ++ n.departing.map (·.peer)).map fun peer =>
      .appendEntries n.asker peer (n.emptyAppend peer 0)) := by
  unfold broadcastHeartbeat
  generalize n.membership.peers.map (·.id) ++ n.departing.map (·.peer) = peers
  -- what one heartbeat says does not depend on those sent before
  induction peers generalizing n with
  | nil => simp [sendAll]
  | cons peer peers ih =>
    rw [List.foldl_cons, ih]
    simp [heartbeatPeer, send, sendAll, asker, emptyAppend]

def readBarrier (n : Node ι) (peer : ι) : Msg ι :=
  .appendEntries n.asker peer (n.emptyAppend peer n.readBatchGen)

def broadcastReadBarrier (n : Node ι) : Node ι :=
  n.sendAll ((n.membership.peers.map (·.id)).map n.readBarrier)

def openReadBatch (n : Node ι) : Node ι :=
  { n with
    readBatchGen := n.readBatchGen + 1
    readBatchAcks := some []
    readBatchIndex := n.commitIndex }

def resolveReadBatch (n : Node ι) : Node ι :=
  { n with
    readsDone := n.readsDone ++ n.pendingReads.map fun r => (r, some n.readBatchIndex)
    pendingReads := []
    readBatchAcks := none }

def promoteWaitingReads (n : Node ι) : Node ι :=
  { n with pendingReads := n.pendingReads ++ n.waitingReads, waitingReads := [] }

/-- Starts a batch.  A single voter confirms at once, which starts at most one more. -/
def startReadBatch (n : Node ι) : Node ι :=
  let n := n.openReadBatch
  if n.membership.isSingleVoter then
    let n := n.resolveReadBatch
    if n.waitingReads.isEmpty then n
    else n.promoteWaitingReads.openReadBatch.resolveReadBatch
  else n.broadcastReadBarrier

def confirmReadBatch (n : Node ι) : Node ι :=
  let n := n.resolveReadBatch
  if n.waitingReads.isEmpty then n else n.promoteWaitingReads.startReadBatch

/-- The highest index from `lo` to the end of the log that the quorum holds. -/
def highestCommitted (n : Node ι) (lo : Nat) : Option Nat :=
  (List.range' lo (n.log.lastLogIndex + 1 - lo)).reverse.find? n.committedAt

def maybeAdvanceCommit (n : Node ι) : Node ι :=
  if n.state ≠ .leader ∨ n.termStartIndex = 0 then n
  else
    -- entries of earlier terms are committed along with one of this term only
    match n.highestCommitted (max (n.commitIndex + 1) n.termStartIndex) with
    | none => n
    | some idx =>
      let n := (n.setCommitIndex idx).notifyApply
      if n.leaderNopCommitted then n
      else
        let n := { n with leaderNopCommitted := true }
        if n.pendingReads.isEmpty then n else n.startReadBatch

def endDeparture (n : Node ι) (peer : ι) : Node ι :=
  { n with
    departing := n.departing.filter (·.peer ≠ peer)
    nextIndex := assign n.nextIndex peer none
    matchIndex := assign n.matchIndex peer none
    inflight := assign n.inflight peer 0
    snapshotInflight := n.snapshotInflight.map fun s => s.filter (· ≠ peer)
    peerFailures := assign n.peerFailures peer 0
    peerDown := n.peerDown.filter (· ≠ peer) }

def sendSnapshotToPeer (n : Node ι) (peer : ι) : Node ι :=
  match n.snapshotInflight, n.log.w.storage.snap with
  | some inflight, some snap =>
    if inflight.contains peer then n
    else
      let snap := if n.membership.isWitnessPeer peer then witnessSnapshot snap else snap
      let chunks := snapshotChunks (n.cfg.snapshotLen snap) n.cfg.snapshotChunkSize
      { n with snapshotInflight := some (peer :: inflight) }.sendAll
        (chunks.map fun (offset, len, last) => .installSnapshot n.asker peer
          { term := n.currentTerm, leaderID := n.cfg.id, position := snap.position,
            offset := offset, len := len, last := last, snap := snap })
  | _, _ => n

/-- Entries as a peer gets them. -/
def strippedFor (n : Node ι) (peer : ι) (es : List (LogEntry ι)) : List (LogEntry ι) :=
  if n.membership.isWitnessPeer peer then stripForWitness es else es

variable [Sized ι]

/-- The entries a peer is sent next; `none` when they cannot be read. -/
def entriesFor (n : Node ι) (peer : ι) : Option (List (LogEntry ι)) :=
  let nextIdx := lookup n.nextIndex peer
  if nextIdx ≤ n.log.lastLogIndex then
    (n.log.entries nextIdx (n.log.lastLogIndex + 1)).map fun es =>
      capByBytes (n.strippedFor peer (es.take n.cfg.maxLogEntriesPerRPC)) n.cfg.maxBytesPerRPC
  else some []

def replicateToPeer (n : Node ι) (peer : ι) : Node ι :=
  let prevIdx := predIndex (lookup n.nextIndex peer)
  if !n.log.canDescribe prevIdx then
    -- a peer on its way out is not sent a snapshot
    if n.departing.any (·.peer = peer) then n.endDeparture peer else n.sendSnapshotToPeer peer
  else if n.cfg.maxInflightRPCs ≤ n.inflight peer then n
  else
    match n.entriesFor peer with
    | none => n
    | some es =>
      let n := { n with inflight := assign n.inflight peer (n.inflight peer + 1) }
      n.send (.appendEntries n.asker peer { n.emptyAppend peer 0 with entries := es })

def replicateToFollowers (n : Node ι) : Node ι :=
  let n := (n.membership.peers.map (·.id)).foldl replicateToPeer n
  (n.departing.map (·.peer)).foldl replicateToPeer n

def appendFinaliseEntry (n : Node ι) (newPeers : List (PeerConfig ι))
    (includeSelf selfVoter : Bool) : Node ι :=
  let allNew := withSelf newPeers n.cfg.id includeSelf selfVoter n.cfg.witness
  let idx := n.log.lastLogIndex + 1
  let (seq, log) := n.log.append [⟨idx, n.currentTerm, .config (.finalise allNew)⟩]
  let n := { n with log := log, pendingConfigIndex := idx }
  let n := n.afterWrite seq (.proposals [idx]) id
  n.replicateToFollowers.maybeAdvanceCommit

end Node

end Raft
