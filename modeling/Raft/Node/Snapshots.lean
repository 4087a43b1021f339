import Raft.Node.Replication

/-!
# Snapshots

Receiving a snapshot in chunks, installing it, taking a local one, and the
progress of a peer that was sent one.

A transfer that is being received is known by its first chunk.  The channel
between the event loop and the goroutine that saves the chunks never fills up
here.
-/

namespace Raft

variable {ι : Type} [DecidableEq ι]

namespace Node

variable (n : Node ι)

variable (dst : Asker ι)

variable (req : InstallSnapshotRequest ι)

variable (resp : InstallSnapshotResponse)

def replySnapshot : Node ι :=
  n.send (.installSnapshotReply n.cfg.id dst req resp)

def replySnapshotWhenDurable : Node ι :=
  n.afterWrite (n.sendGate 0) (.installSnapshotReply dst req resp) (·.replySnapshot dst req resp)

/-- Holds the answer to the last chunk until the installation is done; one held before fails. -/
def holdSnapshotAck : Node ι :=
  { n with snapshots := { n.snapshots with
    snapInstallAck := some ⟨req.position.lastIncludedIndex, dst, req, ⟨n.currentTerm⟩⟩ } }

/-- Forgets a transfer that the chunk does not continue. -/
def dropStaleTransfer : Node ι :=
  match n.snapshots.pendingSnap with
  | some p =>
    if p.position.lastIncludedIndex ≠ req.position.lastIncludedIndex ∨ req.offset = 0 then
      { n with snapshots := { n.snapshots with pendingSnap := none } }
    else n
  | none => n

def takeChunk (src : Asker ι) (req : InstallSnapshotRequest ι) (p : PartialSnapshot ι) : Node ι :=
  -- a chunk out of place goes unanswered
  if req.offset ≠ p.expectedOff then n
  else if req.last then
    let n := { n with snapshots := { n.snapshots with
      pendingSnap := none
      installing := n.snapshots.installing ++ [p.snap]
      installingSnap := p.position.lastIncludedIndex } }
    n.holdSnapshotAck src req
  else
    let p : PartialSnapshot ι := { p with expectedOff := p.expectedOff + req.len }
    let n := { n with snapshots := { n.snapshots with pendingSnap := some p } }
    n.replySnapshotWhenDurable src req ⟨n.currentTerm⟩

def handleInstallSnapshot (src : Asker ι) (req : InstallSnapshotRequest ι) : Node ι :=
  if req.term < n.currentTerm then n.replySnapshotWhenDurable src req ⟨n.currentTerm⟩
  else
    let n := if n.currentTerm < req.term then n.becomeFollower req.term (some req.leaderID) else n
    let n := { n with leaderID := some req.leaderID }.resetElectionTimeout
    if req.position.lastIncludedIndex ≤ n.lastApplied then
      n.replySnapshotWhenDurable src req ⟨n.currentTerm⟩
    else
      let n := n.dropStaleTransfer req
      match n.snapshots.pendingSnap with
      | some p => n.takeChunk src req p
      | none =>
        -- the beginning was lost
        if req.offset ≠ 0 then n
        else if n.snapshots.installingSnap = req.position.lastIncludedIndex then
          n.holdSnapshotAck src req
        else
          let n := { n with snapshots := { n.snapshots with
            pendingSnap := some ⟨req.snap, req.position, 0⟩, snapInstallAck := none } }
          n.takeChunk src req ⟨req.snap, req.position, 0⟩

/-- Releases the answer held for an installation; a failed one is not answered. -/
def answerSnapInstallAck (index : Nat) (ok : Bool) : Node ι :=
  match n.snapshots.snapInstallAck with
  | some ack =>
    if ack.index ≠ index then n
    else
      let n := { n with snapshots := { n.snapshots with snapInstallAck := none } }
      if ok then n.replySnapshotWhenDurable ack.dst ack.req ack.resp else n
  | none => n

variable [Sized ι]

variable (snap : Snapshot ι)

/-- Takes over what an installed snapshot records, the bound before the table that is trimmed to it.
-/
def adoptFrame : Node ι :=
  let n := match snap.clientTableCap with
    | some capacity =>
      let n := n.adoptClientTableCap capacity
      { n with membership := { n.membership with baseClientTableCap := some capacity } }
    | none => n
  let m := match snap.membership with
    | some ms => { n.membership with base := ms }.adoptCommitQuorum ms.commitQuorum
    | none => n.membership
  { n with clientTable := n.clientTable.loadFrom snap.table, membership := m }

def adoptSnapshot : Node ι :=
  let n := n.adoptFrame snap
  match n.log.installSnapshot snap.position with
  -- the bound, the table and the base have been taken over all the same
  | none => n
  | some log =>
    let n := { n with log := log }
    let n := if snap.membership.isSome then n.rebuildMembership.1.checkWitness else n
    let n := { n with
      lastApplied := max n.lastApplied snap.position.lastIncludedIndex
      apply := { n.apply with restore := some snap } }
    n.setCommitIndex snap.position.lastIncludedIndex

def handleSnapInstallResult (ok : Bool) : Node ι :=
  let index := snap.position.lastIncludedIndex
  let n := { n with snapshots := { n.snapshots with
    installingSnap := if n.snapshots.installingSnap = index then 0
      else n.snapshots.installingSnap } }
  let n := n.answerSnapInstallAck index ok
  if !ok then
    -- the transfer may have begun again meanwhile
    if n.snapshots.pendingSnap.any (·.position.lastIncludedIndex = index) then
      { n with snapshots := { n.snapshots with pendingSnap := none } }
    else n
  else if index ≤ n.lastApplied then n
  else n.adoptSnapshot snap

def trailingLogs (n : Node ι) : Nat :=
  if 0 < n.cfg.snapshotThreshold ∧ n.cfg.snapshotThreshold ≤ n.cfg.trailingLogs then
    n.cfg.snapshotThreshold - 1
  else n.cfg.trailingLogs

def maybeSnapshot : Node ι :=
  if n.snapshots.snapshotting ∨ n.cfg.snapshotThreshold = 0 then n
  else if n.lastApplied < n.log.snapMeta.lastIncludedIndex + n.cfg.snapshotThreshold then n
  else
    match n.log.termAt n.lastApplied with
    | none => n
    | some term =>
      let trigger : SnapshotTrigger ι :=
        { position := ⟨n.lastApplied, term⟩
          clientTable := n.clientTable.items
          membership := n.membership.current n.cfg.id n.cfg.witness
          clientTableCap := n.membership.agreedCap }
      { n with
        snapshots := { n.snapshots with snapshotting := true }
        apply := { n.apply with snapshotTrigger := some trigger } }

def handleSnapshotResult (r : SnapshotResult ι) : Node ι :=
  let n := { n with snapshots := { n.snapshots with snapshotting := false } }
  if r.err then n
  else
    { n with
      log := n.log.compact r.trigger.position n.trailingLogs
      membership := { n.membership with
        base := r.trigger.membership, baseClientTableCap := r.trigger.clientTableCap } }

def releaseSnapshotInflight (peer : ι) : Node ι :=
  { n with snapshotInflight := n.snapshotInflight.map fun s => s.filter (· ≠ peer) }

def handleInstallSnapshotResult (peer : ι) (req : InstallSnapshotRequest ι)
    (resp : InstallSnapshotResponse) : Node ι :=
  let n := n.releaseSnapshotInflight peer
  if n.currentTerm < resp.term then n.becomeFollower resp.term none
  else if n.state ≠ .leader then n
  else
    let index := req.position.lastIncludedIndex
    let n := if lookup n.matchIndex peer ≤ index then
        { n with
          nextIndex := assign n.nextIndex peer (some (index + 1))
          matchIndex := assign n.matchIndex peer (some index) }
      else n
    let n := if lookup n.nextIndex peer ≤ lookup n.matchIndex peer then
        { n with nextIndex := assign n.nextIndex peer (some (lookup n.matchIndex peer + 1)) }
      else n
    let n := n.maybeAdvanceCommit
    if lookup n.nextIndex peer ≤ n.log.lastLogIndex then n.replicateToPeer peer else n

def handleInstallSnapshotDropped (peer : ι) : Node ι :=
  let n := n.releaseSnapshotInflight peer
  if n.snapshotInflight.isSome then n.replicateToPeer peer else n

end Node

end Raft
