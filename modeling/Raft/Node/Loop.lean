import Raft.Node.Apply
import Raft.Node.Snapshots

/-!
# The event loop

Ticks, proposals, reads, transfers, storage completions, the apply loop and its
results, and the construction of a node from its store.
-/

namespace Raft

variable {ι : Type} [DecidableEq ι] [Sized ι]

namespace Node

variable (n : Node ι)

def handleLeadershipTransfer (target : ι) : Node ι :=
  if n.state ≠ .leader ∨ n.transferTarget.isSome then n
  else
    match n.membership.peers.find? (·.id = target) with
    | none => n
    | some peer =>
      if peer.witness || !peer.voter then n
      else if n.log.lastLogIndex ≤ lookup n.matchIndex target then
        { n.sendTimeoutNow target with transferTarget := none, transferElapsed := 0 }
      else
        replicateToPeer { n with transferTarget := some target, transferElapsed := 0 } target

/-- A linearizable read, known by its number. -/
def handleReadIndex (read : Nat) : Node ι :=
  if n.state ≠ .leader then { n with readsDone := n.readsDone ++ [(read, none)] }
  else if !n.leaderNopCommitted then { n with pendingReads := n.pendingReads ++ [read] }
  else if n.membership.isSingleVoter then
    -- nobody else can have been elected
    { n with readsDone := n.readsDone ++ [(read, some n.commitIndex)] }
  else if n.readBatchAcks.isSome then { n with waitingReads := n.waitingReads ++ [read] }
  else startReadBatch { n with pendingReads := n.pendingReads ++ [read] }

def handleReadIndexRPC (req : ReadIndexRequest) (read : Nat) : Node ι :=
  if n.currentTerm < req.term then
    let n := n.becomeFollower req.term none
    { n with readsDone := n.readsDone ++ [(read, none)] }
  else n.handleReadIndex read

/-- A read on a node that does not lead goes to the leader it knows. -/
def forwardRead (read : Nat) : Node ι :=
  match n.leaderID with
  | some leader =>
    if n.state = .leader then n else n.send (.readIndex leader ⟨n.durableTerm⟩ read)
  | none => n

def tickElection : Node ι :=
  if !n.membership.voter then n
  else if n.electionElapsed + 1 < n.electionTimeout then
    { n with electionElapsed := n.electionElapsed + 1 }
  else if n.cfg.witness then { n with electionElapsed := n.electionTimeout }
  else n.resetElectionTimeout.triggerElection

def tickHeartbeat : Node ι :=
  if n.heartbeatElapsed + 1 < n.cfg.heartbeatTimeout then
    { n with heartbeatElapsed := n.heartbeatElapsed + 1 }
  else
    let n := broadcastHeartbeat { n with heartbeatElapsed := 0 }
    -- barriers may have been lost
    if n.leaderNopCommitted && !n.pendingReads.isEmpty then n.broadcastReadBarrier else n

def tickTransfer : Node ι :=
  if n.transferTarget.isNone then n
  else if n.electionTimeout ≤ n.transferElapsed + 1 then
    { n with transferTarget := none, transferElapsed := 0 }
  else { n with transferElapsed := n.transferElapsed + 1 }

def tickPreferred : Node ι :=
  match n.cfg.preferredLeader with
  | none => n
  | some preferred =>
    if preferred ≠ n.cfg.id ∧ n.transferTarget.isNone ∧ n.leaderNopCommitted then
      n.handleLeadershipTransfer preferred
    else n

def tickQuorum : Node ι :=
  if !n.cfg.checkQuorum || n.membership.peers.isEmpty then n
  else if n.leaderQuorumElapsed + 1 < n.electionTimeout then
    { n with leaderQuorumElapsed := n.leaderQuorumElapsed + 1 }
  else if n.membership.acked .commitQuorum n.quorumAcks then
    { n with quorumAcks := [], leaderQuorumElapsed := 0 }
  else
    becomeFollower { n with leaderQuorumElapsed := n.leaderQuorumElapsed + 1 } n.currentTerm none

def tick : Node ι :=
  if n.state = .leader then
    let n := n.tickHeartbeat
    let n := if n.departing.isEmpty then n else n.tickDepartures
    n.tickTransfer.tickPreferred.tickQuorum
  else n.tickElection

structure Batch (ι : Type) where
  entries : List (LogEntry ι)
  pendingConfigIndex : Nat
  backlog : Int

/-- The client table answers or refuses the command. -/
def answersFromTable (cmd : Command ι) : Bool :=
  cmd.dedup.any fun d => (n.clientTable.get d.clientID).any fun cached => d.seqNum ≤ cached.seqNum

/-- Takes one proposal into the batch, or refuses it. -/
def addToBatch (b : Batch ι) (cmd : Command ι) : Batch ι :=
  let idx := n.log.lastLogIndex + b.entries.length + 1
  if cmd.isConfigEntry ∧ b.pendingConfigIndex ≠ 0 then b
  else if n.answersFromTable cmd then b
  else if 0 < n.unstableLimit ∧ 0 < b.backlog ∧ n.unstableLimit < b.backlog + cmd.len then b
  else
    { entries := b.entries ++ [⟨idx, n.currentTerm, cmd⟩]
      pendingConfigIndex := if cmd.isConfigEntry then idx else b.pendingConfigIndex
      backlog := b.backlog + cmd.len }

/-- The entry that puts this node's bound of the client table into the log, if none is known. -/
def proposeCap (cmds : List (Command ι)) : List (LogEntry ι) × Node ι :=
  if !n.membership.clientTableCapReplicated && n.capEntryPending == 0 && cmds.any (·.isDedupCmd) then
    let idx := n.log.lastLogIndex + 1
    ([⟨idx, n.currentTerm, .config (.clientTableCap n.cfg.maxClientTableSize)⟩],
      { n with
        capEntryPending := idx
        membership := { n.membership with clientTableCapReplicated := true } })
  else ([], n)

/-- The entry that puts the configured commit quorum into the log, if none is agreed on. -/
def proposeQuorum : List (LogEntry ι) × Node ι :=
  if n.cfg.commitQuorum ≠ 0 ∧ !n.membership.commitQuorumAgreed ∧
      n.membership.commitQuorumLatest = 0 ∧ n.quorumEntryPending = 0 ∧ n.pendingConfigIndex = 0 then
    let idx := n.log.lastLogIndex + 1
    ([⟨idx, n.currentTerm, .config (.commitQuorum n.cfg.commitQuorum)⟩],
      { n with
        quorumEntryPending := idx
        pendingConfigIndex := idx
        membership := { n.membership with commitQuorumLatest := n.cfg.commitQuorum } })
  else ([], n)

def handleProposals (cmds : List (Command ι)) : Node ι :=
  if n.state ≠ .leader ∨ n.transferTarget.isSome then n
  else
    let backlog := n.log.unstableBytes
    -- each of the two is numbered as the next entry, also when there are both
    let (capEntries, n) := n.proposeCap cmds
    let (quorumEntries, n) := n.proposeQuorum
    let b := cmds.foldl n.addToBatch ⟨capEntries ++ quorumEntries, n.pendingConfigIndex, backlog⟩
    if b.entries.isEmpty then n
    else
      let (seq, log) := n.log.append b.entries
      let n := { n with
        pendingConfigIndex := b.pendingConfigIndex
        membership := n.membership.noteAppendedConfig b.entries
        log := log }
      let n := n.afterWrite seq (.proposals (b.entries.map (·.index))) id
      n.replicateToFollowers.maybeAdvanceCommit

def runDeferred : Deferred ι → Node ι
  | .requestVoteReply dst req resp => n.replyVote dst req resp
  | .appendEntriesReply dst req resp => n.replyAppend dst req resp
  | .installSnapshotReply dst req resp => n.replySnapshot dst req resp
  | .campaign term => n.campaign term
  | .proposals _ => n

/-- When a write has failed, answers become errors, and proposals are forgotten. -/
def failDeferred : Deferred ι → Node ι
  | .proposals indices =>
    let clear := fun i : Nat => if indices.contains i then 0 else i
    { n with
      pendingConfigIndex := clear n.pendingConfigIndex
      capEntryPending := clear n.capEntryPending
      quorumEntryPending := clear n.quorumEntryPending }
  | _ => n

def runDeferredWrites (seq : Nat) : Node ι :=
  let pending := n.deferredWrites
  let due := pending.filter (·.seq ≤ seq)
  let n := due.foldl (fun n d => n.runDeferred d.work) { n with deferredWrites := [] }
  -- what was held back meanwhile comes last
  { n with deferredWrites := pending.filter (seq < ·.seq) ++ n.deferredWrites }

def failDeferredWrites : Node ι :=
  n.deferredWrites.foldl (fun n d => n.failDeferred d.work) { n with deferredWrites := [] }

/-- Takes note of one completed storage operation. -/
def handleWriteDone (d : WriteDone) : Node ι :=
  if d.err then
    failDeferredWrites (fail { n with completedWriteSeq := max n.completedWriteSeq d.seq })
  else
    let n := { n with
      log := n.log.stabilize d
      completedWriteSeq := max n.completedWriteSeq d.seq
      -- the latest term and vote are on disk
      unsafeTermSeq := if n.unsafeTermSeq ≠ 0 ∧ n.unsafeTermSeq ≤ d.seq then 0
        else n.unsafeTermSeq
      durableTerm := if n.unsafeTermSeq ≠ 0 ∧ n.unsafeTermSeq ≤ d.seq then n.currentTerm
        else n.durableTerm }
    n.runDeferredWrites d.seq

def onDurableAdvanced : Node ι :=
  let n := n.notifyApply
  let n := if n.state = .leader then n.maybeAdvanceCommit else n
  n.maybeRecordCommit

def handleWriteCompletions : Node ι :=
  let (done, w) := n.log.w.takeDone
  if done.isEmpty then n
  else
    let n := { n with log := { n.log with w := w } }
    (done.foldl handleWriteDone n).onDurableAdvanced

def applyCommitted (faults : ReadFaults) : Node ι :=
  { n with apply := n.apply.commit n.cfg.stateMachine n.log.w.storage faults }

def applyRestore (ok : Bool) : Node ι := { n with apply := n.apply.restoreFrom ok }

def captureSnapshot : Node ι :=
  match n.apply.snapshotTrigger with
  | none => n
  | some trigger =>
    { n with
      apply := { n.apply with snapshotTrigger := none }
      snapshots := { n.snapshots with writing := n.snapshots.writing ++ [(trigger, n.apply.sm)] } }

/-- A captured snapshot is written; when the state machine fails, storage saves what came
before. -/
def writeSnapshot (outcome : SnapshotWrite ι) : Node ι :=
  match n.snapshots.writing with
  | [] => n
  | (trigger, data) :: rest =>
    let framed := fun data => (⟨trigger.position, trigger.clientTable, some trigger.membership,
      trigger.clientTableCap, data⟩ : Snapshot ι)
    { n with
      log := match outcome with
        | .saved => n.log.saveSnapshot (framed data)
        | .cut written => n.log.saveSnapshot (framed written)
        | .refused => n.log
      snapshots := { n.snapshots with
        writing := rest
        results := n.snapshots.results ++ [⟨trigger, !outcome.isSaved⟩] } }

/-- The `k`-th received snapshot is saved, or fails to be; `ok` says that it can be read back. -/
def installSnapshot (k : Nat) (saved ok : Bool) : Node ι :=
  match n.snapshots.installing[k]? with
  | none => n
  | some snap =>
    { n with
      log := if saved then n.log.saveSnapshot snap else n.log
      snapshots := { n.snapshots with
        installing := n.snapshots.installing.eraseIdx k
        installed := n.snapshots.installed ++ [(snap, saved && ok)] } }

/-- Records the result of an exactly-once command, unless a higher number is recorded. -/
def recordOutcome (r : ApplyResult ι) : Node ι :=
  match r.cmd.bind (·.dedup) with
  | none => n
  | some d =>
    if r.err ∨ (n.clientTable.get d.clientID).any (fun cached => d.seqNum < cached.seqNum) then n
    else { n with clientTable := n.clientTable.put d.clientID ⟨d.seqNum, r.val⟩ }

def handleApplyResult : Node ι :=
  match n.apply.results with
  | [] => n
  | r :: rest =>
    let n := { n with
      apply := { n.apply with results := rest }, lastApplied := max n.lastApplied r.index }
    let n := match r.configCmd with
      | some op =>
        let n := n.applyConfigChange op r.index
        { n with
          pendingConfigIndex := if n.pendingConfigIndex = r.index then 0 else n.pendingConfigIndex }
      | none => n
    (n.recordOutcome r).maybeSnapshot

def takeSnapshotResult : Node ι :=
  match n.snapshots.results with
  | [] => n
  | r :: rest => handleSnapshotResult { n with snapshots := { n.snapshots with results := rest } } r

def takeInstallResult (k : Nat) : Node ι :=
  match n.snapshots.installed[k]? with
  | none => n
  | some (snap, ok) =>
    handleSnapInstallResult { n with snapshots := { n.snapshots with
      installed := n.snapshots.installed.eraseIdx k } } snap ok

/-- A node before its membership is recovered, continuing the incarnation before. -/
def fresh (cfg : Config ι) (store : Store ι) (log : RaftLog ι) (boot draws : Nat)
    (out : List (Msg ι)) (sm : List (LogEntry ι)) (lastApplied : Nat) : Node ι :=
  { cfg := cfg
    boot := boot
    currentTerm := store.hs.currentTerm
    votedFor := store.hs.votedFor
    state := .follower
    commitIndex := 0
    nextIndex := fun _ => none
    matchIndex := fun _ => none
    receivedVoteSet := []
    termStartIndex := 0
    membership :=
      { peers := cfg.peers, voter := cfg.voter, jointOld := none, jointNew := []
        jointIncludeSelf := false, jointSelfVoter := false, jointSelfVoterOld := false
        membershipWitness := false
        base :=
          { joint := false, members := withSelf cfg.peers cfg.id true cfg.voter cfg.witness
            old := [], new := [], commitQuorum := 0 }
        configIndex := 0, commitQuorumApplied := 0, commitQuorumLatest := 0
        commitQuorumAgreed := false, clientTableCap := cfg.maxClientTableSize
        clientTableCapReplicated := false, clientTableCapAgreed := false
        baseClientTableCap := none }
    log := log
    deferredWrites := []
    unsafeTermSeq := 0
    completedWriteSeq := 0
    apply :=
      { commitNotify := none, restore := none, snapshotTrigger := none
        localLastApplied := lastApplied, clientTable := .empty cfg.maxClientTableSize, sm := sm
        results := [] }
    fatalErr := false
    out := out
    leaderID := none
    clientTable := .empty cfg.maxClientTableSize
    durableTerm := store.hs.currentTerm
    lastApplied := lastApplied
    recordedCommit := if cfg.commitRecorder then store.commitIndex else 0
    electionElapsed := 0
    heartbeatElapsed := 0
    electionTimeout := 0
    draws := draws
    inflight := fun _ => 0
    snapshotInflight := none
    departing := []
    peerFailures := fun _ => 0
    peerDown := []
    pendingConfigIndex := 0
    capEntryPending := 0
    quorumEntryPending := 0
    leaderNopCommitted := false
    quorumAcks := []
    leaderQuorumElapsed := 0
    transferTarget := none
    transferElapsed := 0
    readBatchGen := 0
    readBatchAcks := none
    readBatchIndex := 0
    pendingReads := []
    waitingReads := []
    readsDone := []
    snapshots :=
      { snapshotting := false, writing := [], results := [], pendingSnap := none
        installing := [], installed := [], installingSnap := 0, snapInstallAck := none } }

/-- The last index whose effect a durable state machine has kept. -/
def durableAppliedIndex (cfg : Config ι) (sm : List (LogEntry ι)) : Nat :=
  if cfg.durableSM then (sm.getLast?.map (·.index)).getD 0 else 0

/-- Recovers what the snapshot records; the apply loop's table only if the machine is
restored. -/
def recoverSnapshot (store : Store ι) (durableApplied : Nat) : Node ι :=
  let snapIndex := (store.snap.map (·.position.lastIncludedIndex)).getD 0
  let table : ClientLRU :=
    .empty ((store.snap.bind (·.clientTableCap)).getD n.cfg.maxClientTableSize)
  let filled := table.loadFrom ((store.snap.map (·.table)).getD [])
  { n with
    membership := n.membership.fromStore store
    clientTable := if 0 < snapIndex then filled else table
    apply := { n.apply with
      clientTable := if 0 < snapIndex ∧ durableApplied < snapIndex then filled else table } }

/-- Builds a node from its store, if the log can be read and the membership agrees with the
store. -/
def new (cfg : Config ι) (store : Store ι) (boot draws : Nat) (out : List (Msg ι))
    (sm : List (LogEntry ι)) : Option (Node ι) :=
  match RaftLog.new store cfg.batchWriter cfg.commitRecorder with
  | none => none
  | some log =>
    let durableApplied := durableAppliedIndex cfg sm
    if log.lastLogIndex < durableApplied then none
    else
      let snapIndex := log.snapMeta.lastIncludedIndex
      -- a state machine that has kept more than the snapshot is left alone
      let sm := if 0 < snapIndex ∧ durableApplied < snapIndex then
          (store.snap.map (·.data)).getD []
        else if cfg.durableSM then sm else []
      let n := fresh cfg store log boot draws out sm (max snapIndex durableApplied)
      match (n.recoverSnapshot store durableApplied).rebuildMembership with
      | (_, false) => none
      | (n, true) =>
        if n.membership.membershipWitness = n.cfg.witness then some n.resetElectionTimeout else none

end Node

/-- A small group of full voters: short timeouts, no limits and no snapshots. -/
def Config.ofPeers {ι : Type} (id : ι) (peers : List ι) : Config ι :=
  { id := id
    peers := peers.map (⟨·, true, false⟩)
    voter := true
    witness := false
    checkQuorum := false
    preferredLeader := none
    maxInflightRPCs := 8
    maxLogEntriesPerRPC := 8
    maxBytesPerRPC := 0
    maxUnstableLogBytes := 0
    minCommitZones := 0
    zones := fun _ => none
    commitQuorum := 0
    maxClientTableSize := 0
    snapshotThreshold := 0
    trailingLogs := 0
    snapshotChunkSize := 1
    snapshotLen := fun _ => 1
    electionMinTicks := 2
    electionMaxTicks := 3
    heartbeatTimeout := 1
    rand := fun _ => 0
    batchWriter := false
    commitRecorder := false
    stateMachine := fun _ _ => ⟨[], false⟩
    durableSM := false }

def Config.ofGroup (group : List Nat) (i : Nat) : Config Nat := .ofPeers i (group.filter (· ≠ i))

def Config.ofSize (k : Nat) (i : Fin k) : Config (Fin k) :=
  .ofPeers i ((List.finRange k).filter (· ≠ i))

def Node.ofStore (group : List Nat) (i : Nat) (store : Store Nat)
    (h : (Node.new (.ofGroup group i) store 0 0 [] []).isSome = true) : Node Nat :=
  (Node.new (.ofGroup group i) store 0 0 [] []).get h

end Raft
