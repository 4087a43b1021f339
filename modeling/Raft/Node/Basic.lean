import Raft.Node.State

/-!
# Building blocks of the event loop

Sending, saving the term, holding work back until a write has landed, timers,
quorum counting and the commit index.

The source hands a closure to `afterWrite`.  Here the closure is a `Deferred`
value, and what running it does is passed beside it: `run` is called at once
when the write has already completed, and by `runDeferred` otherwise.
-/

namespace Raft

variable {ι : Type}

/-- Subtracting one from a 64-bit index: 0 wraps around. -/
def predIndex (i : Nat) : Nat := if i = 0 then 2 ^ 64 - 1 else i - 1

/-- Reading a progress table: an absent key is 0. -/
def lookup (m : ι → Option Nat) (p : ι) : Nat := (m p).getD 0

def assign [DecidableEq ι] {α : Type} (m : ι → α) (p : ι) (a : α) : ι → α :=
  fun q => if q = p then a else m q

def withSelf (peers : List (PeerConfig ι)) (self : ι) (present voter witness : Bool) :
    List (PeerConfig ι) :=
  if present then ⟨self, voter, witness⟩ :: peers else peers

variable (members : List (PeerConfig ι))

def withoutSelf [DecidableEq ι] (self : ι) : List (PeerConfig ι) :=
  members.filter (·.id ≠ self)

def selfIn [DecidableEq ι] (self : ι) : List (PeerConfig ι) :=
  members.filter (·.id = self)

namespace Membership

variable (m : Membership ι)

def quorumNeeded (kind : QuorumKind) (total : Nat) : Nat :=
  Raft.quorumNeeded kind m.commitQuorumApplied m.commitQuorumLatest total

/-- The acknowledging peers, with the node itself when it votes, are a quorum of the members. -/
def hasQuorumAck [DecidableEq ι] (kind : QuorumKind) (acks : List ι) (members : List (PeerConfig ι))
    (includeSelf selfVoter : Bool) : Bool :=
  let self := if includeSelf && selfVoter then 1 else 0
  let count := self + members.countP fun p => p.voter && acks.contains p.id
  -- the voters are those the counting node knows of
  let total := members.countP (·.voter) + self
  m.quorumNeeded kind total ≤ count

/-- A quorum of the group, or of both groups during a joint reconfiguration. -/
def acked [DecidableEq ι] (kind : QuorumKind) (acks : List ι) : Bool :=
  match m.jointOld with
  | none => m.hasQuorumAck kind acks m.peers true m.voter
  | some old =>
    m.hasQuorumAck kind acks old true m.jointSelfVoterOld &&
      m.hasQuorumAck kind acks m.jointNew m.jointIncludeSelf m.jointSelfVoter

def electionWon [DecidableEq ι] (votes : List ι) : Bool := m.acked .electionQuorum votes

def isSingleVoter : Bool := m.voter && m.peers.all fun p => !p.voter

def isWitnessPeer [DecidableEq ι] (peer : ι) : Bool :=
  (m.peers.find? (·.id = peer)).any (·.witness)

end Membership

namespace Node

variable (n : Node ι)

def sendAll (msgs : List (Msg ι)) : Node ι := { n with out := n.out ++ msgs }

def send (msg : Msg ι) : Node ι := n.sendAll [msg]

def asker : Asker ι := ⟨n.cfg.id, n.boot⟩

/-- Puts a term and vote into effect and queues the write. -/
def saveTerm (term : Nat) (votedFor : Option ι) : Node ι :=
  { n with
    log := n.log.enqueue (.hardState ⟨term, votedFor⟩)
    unsafeTermSeq := n.log.nextSeq + 1
    currentTerm := term
    votedFor := votedFor }

/-- The write a message of this turn has to wait for. -/
def sendGate (writeSeq : Nat) : Nat := max n.unsafeTermSeq writeSeq

/-- Runs work at once when its write has completed, and holds it back otherwise. -/
def afterWrite (seq : Nat) (work : Deferred ι) (run : Node ι → Node ι) : Node ι :=
  -- 0 stands for no write
  if seq = 0 ∨ seq ≤ n.completedWriteSeq then run n
  else { n with deferredWrites := n.deferredWrites ++ [⟨seq, work⟩] }

def fail : Node ι := { n with fatalErr := true }

def resetElectionTimeout : Node ι :=
  let span := max 1 (n.cfg.electionMaxTicks - n.cfg.electionMinTicks)
  { n with
    electionTimeout := n.cfg.electionMinTicks + n.cfg.rand n.draws % span
    draws := n.draws + 1
    electionElapsed := 0 }

/-- How far the commit index may run ahead of its recorded value. -/
def commitRecordInterval : Nat := 256

def maybeRecordCommit : Node ι :=
  if !n.cfg.commitRecorder then n
  else
    -- only what is on disk is recorded
    let idx := min n.commitIndex n.log.stableIndex
    if idx < n.recordedCommit + commitRecordInterval then n
    else { n with recordedCommit := idx, log := n.log.enqueue (.commitIndex idx) }

def setCommitIndex (idx : Nat) : Node ι :=
  if idx ≤ n.commitIndex then n else { n with commitIndex := idx }.maybeRecordCommit

/-- Tells the apply loop about the part of the commit index that is on disk. -/
def notifyApply : Node ι :=
  let applicable := min n.commitIndex n.log.stableIndex
  if applicable = 0 then n
  else { n with apply := { n.apply with commitNotify := some applicable } }

def peerUnresponsiveFailures : Nat := 3

def markPeerDown [DecidableEq ι] (peer : ι) : Node ι :=
  if n.peerDown.contains peer then n else { n with peerDown := peer :: n.peerDown }

def markPeerUp [DecidableEq ι] (peer : ι) : Node ι :=
  { n with
    peerDown := n.peerDown.filter (· ≠ peer)
    peerFailures := assign n.peerFailures peer 0 }

def notePeerUnreachable [DecidableEq ι] (peer : ι) : Node ι :=
  let failures := n.peerFailures peer + 1
  let n := { n with peerFailures := assign n.peerFailures peer failures }
  if peerUnresponsiveFailures ≤ failures then n.markPeerDown peer else n

/-- The replicas that hold `idx` sit in enough failure domains. -/
def spansEnoughZones [DecidableEq ι] (idx : Nat) (members : List (PeerConfig ι))
    (includeSelf selfVoter : Bool) : Bool :=
  if n.cfg.minCommitZones ≤ 1 then true
  else
    let self := if includeSelf ∧ selfVoter ∧ idx ≤ n.log.stableIndex then [n.cfg.id] else []
    let holders := members.filter fun p => p.voter && decide (idx ≤ lookup n.matchIndex p.id)
    -- a replica without a zone adds none
    let zones := (self ++ holders.map (·.id)).filterMap n.cfg.zones
    n.cfg.minCommitZones ≤ zones.dedup.length

/-- `idx` has reached a commit quorum.  Witnesses stand in only for a full voter that is down. -/
def replicatedOnMajority [DecidableEq ι] (idx : Nat) (members : List (PeerConfig ι))
    (includeSelf selfVoter : Bool) : Bool :=
  let self := if includeSelf ∧ selfVoter ∧ idx ≤ n.log.stableIndex then 1 else 0
  let holds := fun p : PeerConfig ι => decide (idx ≤ lookup n.matchIndex p.id)
  let witnessAcks := members.countP fun p => p.voter && p.witness && holds p
  let fullAcks := members.countP fun p => p.voter && !p.witness && holds p
  -- one full voter that is down lets every witness count
  let fullDown := members.any fun p =>
    p.voter && !p.witness && !holds p && n.peerDown.contains p.id
  let count := self + fullAcks + if fullDown then witnessAcks else 0
  let total := members.countP (·.voter) + if includeSelf && selfVoter then 1 else 0
  decide (n.membership.quorumNeeded .commitQuorum total ≤ count) &&
    n.spansEnoughZones idx members includeSelf selfVoter

/-- `idx` is committed under the membership in effect. -/
def committedAt [DecidableEq ι] (idx : Nat) : Bool :=
  match n.membership.jointOld with
  | none => n.replicatedOnMajority idx n.membership.peers true n.membership.voter
  | some old =>
    n.replicatedOnMajority idx old true n.membership.jointSelfVoterOld &&
      n.replicatedOnMajority idx n.membership.jointNew n.membership.jointIncludeSelf
        n.membership.jointSelfVoter

end Node

end Raft
