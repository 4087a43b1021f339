import Raft.Node.Membership

/-!
# Handling AppendEntries

The follower's side: the consistency check, merging the entries into the log,
and the commit index the request establishes.  The leader's side: what an answer
says about the peer's log.

An RPC that fails, rather than being answered, looks to the leader like a lost
message and is modelled as one.
-/

namespace Raft

variable {ι : Type} [DecidableEq ι]

namespace Node

variable (n : Node ι)

/-- The consistency check: `none` when it passes, and otherwise what the leader is told. -/
def prevConflict (req : AppendEntriesRequest ι) : Option (Nat × Nat) :=
  let prevTerm := (n.log.termAt req.prevLogIndex).getD 0
  if 0 < req.prevLogIndex ∧ prevTerm ≠ req.prevLogTerm then
    -- nothing at this index: the leader is told where the log ends
    if prevTerm = 0 then some (n.log.lastLogIndex + 1, 0)
    else
      -- another term: the leader is told where its entries begin
      let start := n.log.termRunStart req.prevLogIndex
      some (if start = 0 then req.prevLogIndex else start, prevTerm)
  else none

def unstableLimit : Int :=
  if n.cfg.maxUnstableLogBytes = 0 then 64 * 2 ^ 20
  else if n.cfg.maxUnstableLogBytes < 0 then 0
  else n.cfg.maxUnstableLogBytes

def backlogFull (es : List (LogEntry ι)) : Bool :=
  0 < n.unstableLimit ∧ es ≠ [] ∧ n.unstableLimit ≤ n.log.unstableBytes

def replyAppend (dst : Asker ι) (req : AppendEntriesRequest ι) (resp : AppendEntriesResponse) :
    Node ι :=
  n.send (.appendEntriesReply n.cfg.id dst req resp)

def replyAppendWhenDurable (dst : Asker ι) (req : AppendEntriesRequest ι)
    (resp : AppendEntriesResponse) (writeSeq : Nat) : Node ι :=
  n.afterWrite (n.sendGate writeSeq) (.appendEntriesReply dst req resp)
    (·.replyAppend dst req resp)

variable [Sized ι]

def appendEntries (es : List (LogEntry ι)) : Nat × Node ι :=
  ((n.log.append es).1, { n with log := (n.log.append es).2 })

/-- Truncates the log at a conflict.  The flag is false when the request has to be given up. -/
def truncateConflict (index : Nat) : Node ι × Bool :=
  match n.log.truncateSuffix index with
  | none => (n.fail, false)
  | some log =>
    let n := { n with log := log }
    -- the entry in effect may have been removed
    if index ≤ n.membership.configIndex then n.rebuildMembership else (n, true)

/-- Appends what the log lacks behind a truncation, and returns the write; an error gives up. -/
def mergeEntries (n : Node ι) : List (LogEntry ι) → Except (Node ι) (Nat × Node ι)
  | [] => .ok (0, n)
  | e :: rest =>
    match n.log.termAt e.index with
    -- what is not found is taken for missing, below a snapshot as well
    | none => .ok (n.appendEntries (e :: rest))
    | some existingTerm =>
      if existingTerm = e.term then n.mergeEntries rest
      else
        match n.truncateConflict e.index with
        | (n, false) => .error n
        | (n, true) => .ok (n.appendEntries (e :: rest))

def acceptEntries (src : Asker ι) (req : AppendEntriesRequest ι) (es : List (LogEntry ι)) :
    Node ι :=
  match n.mergeEntries es with
  | .error n => n
  | .ok (writeSeq, n) =>
    let n := { n with membership := n.membership.noteAppendedConfig es }
    let lastCovered := req.prevLogIndex + es.length
    let newCommit := min req.leaderCommit lastCovered
    let n := if n.commitIndex < newCommit then (n.setCommitIndex newCommit).notifyApply else n
    -- entries that were there already may still be on their way to disk
    let gate := if es.isEmpty then writeSeq else max writeSeq (n.log.writeSeqCovering lastCovered)
    n.replyAppendWhenDurable src req ⟨n.currentTerm, true, 0, 0⟩ gate

def handleAppendEntries (src : Asker ι) (req : AppendEntriesRequest ι) : Node ι :=
  if req.term < n.currentTerm then
    n.replyAppendWhenDurable src req ⟨n.currentTerm, false, 0, 0⟩ 0
  else
    let n := n.becomeFollower req.term (some req.leaderID)
    match n.prevConflict req with
    | some (conflictIndex, conflictTerm) =>
      n.replyAppendWhenDurable src req ⟨n.currentTerm, false, conflictIndex, conflictTerm⟩ 0
    | none =>
      -- storage is behind: the request goes unanswered
      if n.backlogFull req.entries then n
      else
        n.acceptEntries src req
          (if n.cfg.witness then stripForWitness req.entries else req.entries)

def sendTimeoutNow (target : ι) : Node ι :=
  n.send (.timeoutNow target ⟨n.currentTerm, n.cfg.id⟩)

variable (peer : ι)

def releaseInflight : Node ι :=
  { n with inflight := assign n.inflight peer (n.inflight peer - 1) }

def backtrackTo (resp : AppendEntriesResponse) : Nat :=
  let hint :=
    if resp.conflictTerm ≠ 0 then
      match n.log.lastIndexOfTerm resp.conflictTerm with
      | some idx => idx + 1
      | none => resp.conflictIndex
    else resp.conflictIndex
  -- never below what the peer has acknowledged
  max (max hint 1) (lookup n.matchIndex peer + 1)

/-- A rejection moves the next index back and retries at once, unless it carries no hint or is
stale. -/
def handleRejection (req : AppendEntriesRequest ι) (resp : AppendEntriesResponse) : Node ι :=
  if resp.conflictIndex = 0 ∧ resp.conflictTerm = 0 then n
  else if req.prevLogIndex < lookup n.matchIndex peer then n
  else
    let next := n.backtrackTo peer resp
    replicateToPeer { n with nextIndex := assign n.nextIndex peer (some next) } peer

def recordProgress (req : AppendEntriesRequest ι) : Node ι :=
  match req.entries.getLast? with
  | none => n
  | some e =>
    { n with
      matchIndex := if lookup n.matchIndex peer < e.index then
        assign n.matchIndex peer (some e.index) else n.matchIndex
      nextIndex := if lookup n.nextIndex peer < e.index + 1 then
        assign n.nextIndex peer (some (e.index + 1)) else n.nextIndex }

def countReadAck (req : AppendEntriesRequest ι) (resp : AppendEntriesResponse) : Node ι :=
  if req.readBarrier ≠ 0 ∧ req.readBarrier = n.readBatchGen ∧ resp.term = n.currentTerm then
    -- also when the round is confirmed and no set is open any more
    let acks := peer :: n.readBatchAcks.getD []
    let n := { n with readBatchAcks := some acks }
    if n.membership.acked .commitQuorum acks then n.confirmReadBatch else n
  else n

def maybeFinishTransfer : Node ι :=
  if n.transferTarget = some peer ∧ n.log.lastLogIndex ≤ lookup n.matchIndex peer then
    { n.sendTimeoutNow peer with transferTarget := none, transferElapsed := 0 }
  else n

def handleSuccess (req : AppendEntriesRequest ι) (resp : AppendEntriesResponse) : Node ι :=
  let n := { n with quorumAcks := peer :: n.quorumAcks }
  let n := ((n.recordProgress peer req).maybeAdvanceCommit.maybeFinishTransfer peer).countReadAck
    peer req resp
  if lookup n.nextIndex peer ≤ n.log.lastLogIndex then n.replicateToPeer peer else n

def handleAppendResult (req : AppendEntriesRequest ι) (resp : AppendEntriesResponse) : Node ι :=
  let n := (n.releaseInflight peer).markPeerUp peer
  if n.currentTerm < resp.term then n.becomeFollower resp.term none
  else if n.state ≠ .leader then n
  else if !resp.success then n.handleRejection peer req resp
  else
    match n.departingPeer peer req with
    | some n => n
    | none => n.handleSuccess peer req resp

def handleAppendDropped : Node ι :=
  (n.releaseInflight peer).notePeerUnreachable peer

end Node

end Raft
