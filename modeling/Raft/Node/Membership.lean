import Raft.Node.Transitions

/-!
# Membership

The membership in effect is the one of the snapshot base with the configuration
entries of the log on top.  At startup and after a truncation it is recomputed
from the log; otherwise an entry takes effect when it is applied.
-/

namespace Raft

variable {ι : Type} [DecidableEq ι]

/-- The members of two groups, each once and without the node itself. -/
def peerUnion (a b : List (PeerConfig ι)) (self : ι) : List (PeerConfig ι) :=
  (a ++ b).foldl (fun out p =>
    if p.id = self ∨ (out.map (·.id)).contains p.id then out else out ++ [p]) []

def setVoter (id : ι) (voter : Bool) : List (PeerConfig ι) → List (PeerConfig ι)
  | [] => []
  | p :: ps => if p.id = id then { p with voter := voter } :: ps else p :: setVoter id voter ps

def containsPeer (ps : List (PeerConfig ι)) (id : ι) : Bool := (ps.map (·.id)).contains id

namespace Membership

variable (m : Membership ι)

/-- The membership recorded with a snapshot. -/
def current (self : ι) (witness : Bool) : MembershipState ι :=
  match m.jointOld with
  | some old =>
    { joint := true
      members := []
      old := withSelf old self true m.jointSelfVoterOld witness
      new := withSelf m.jointNew self m.jointIncludeSelf m.jointSelfVoter witness
      commitQuorum := m.commitQuorumApplied }
  | none =>
    { joint := false
      members := withSelf m.peers self true m.voter witness
      old := []
      new := []
      commitQuorum := m.commitQuorumApplied }

def selfVoterIn (members : List (PeerConfig ι)) (self : ι) : Bool :=
  (selfIn members self).getLast?.any (·.voter)

def restore (self : ι) (ms : MembershipState ι) : Membership ι :=
  -- the first listing of the node says what it is, the last one whether it votes
  let witness := fun members : List (PeerConfig ι) =>
    match (selfIn members self).head? with
    | some p => p.witness
    | none => m.membershipWitness
  if ms.joint then
    let old := withoutSelf ms.old self
    let new := withoutSelf ms.new self
    { m with
      commitQuorumLatest := ms.commitQuorum
      membershipWitness := witness ms.old
      jointOld := some old
      jointNew := new
      jointSelfVoterOld := selfVoterIn ms.old self
      jointIncludeSelf := !(selfIn ms.new self).isEmpty
      jointSelfVoter := selfVoterIn ms.new self
      voter := selfVoterIn ms.old self
      peers := peerUnion old new self }
  else
    { m with
      commitQuorumLatest := ms.commitQuorum
      membershipWitness := witness ms.members
      peers := withoutSelf ms.members self
      voter := selfVoterIn ms.members self
      jointOld := none
      jointNew := []
      jointIncludeSelf := false
      jointSelfVoter := false
      jointSelfVoterOld := false }

/-- What entries say about counting from the moment they are in the log. -/
def noteAppendedConfig (es : List (LogEntry ι)) : Membership ι :=
  es.foldl (fun m e =>
    match e.command with
    | .config (.commitQuorum q) => { m with commitQuorumLatest := q }
    | .config (.clientTableCap _) => { m with clientTableCapReplicated := true }
    | _ => m) m

def adoptCommitQuorum (q : Nat) : Membership ι :=
  { m with commitQuorumApplied := q, commitQuorumAgreed := true }

def adoptCap (capacity : Nat) : Membership ι :=
  { m with
    clientTableCap := capacity, clientTableCapAgreed := true, clientTableCapReplicated := true }

def agreedCap : Option Nat :=
  if m.clientTableCapAgreed then some m.clientTableCap else none

def fromStore (store : Store ι) : Membership ι :=
  let m := match store.snap.bind (·.clientTableCap) with
    | some capacity => { m.adoptCap capacity with baseClientTableCap := some capacity }
    | none => m
  match store.snap.bind (·.membership) with
  | some ms => { m with base := ms }.adoptCommitQuorum ms.commitQuorum
  | none => m

end Membership

namespace Node

variable (n : Node ι)

def restoreMembership (ms : MembershipState ι) : Node ι :=
  { n with membership := n.membership.restore n.cfg.id ms }

variable [Sized ι]

/-- Keeps telling a removed peer until it knows, starting now. -/
def beginDeparture (peer : ι) (index : Nat) : Node ι :=
  if n.state ≠ .leader then n
  else
    let departing : List (Departure ι) := ⟨peer, index, 0⟩ :: n.departing.filter (·.peer ≠ peer)
    replicateToPeer { n with departing := departing } peer

/-- A leader recounts when the way the group counts has changed. -/
def recount : Node ι := if n.state = .leader then n.maybeAdvanceCommit else n

def adoptAdd (peer : PeerConfig ι) : Node ι :=
  let m := n.membership
  if peer.id = n.cfg.id then
    { n with membership := { m with membershipWitness := peer.witness, voter := peer.voter } }
  else
    match m.peers.find? (·.id = peer.id) with
    | some p =>
      -- of a known peer only the vote can change
      if p.voter = peer.voter then n
      else
        { n with membership := { m with peers := setVoter peer.id peer.voter m.peers } }.recount
    | none =>
      let n := { n with membership := { m with peers := m.peers ++ [peer] } }
      if n.state ≠ .leader then n
      else if n.departing.any (·.peer = peer.id) then
        -- its progress has been kept
        { n with departing := n.departing.filter (·.peer ≠ peer.id) }
      else { n with
        nextIndex := assign n.nextIndex peer.id (some (n.log.lastLogIndex + 1))
        matchIndex := assign n.matchIndex peer.id (some 0) }

def adoptRemove (id : ι) (index : Nat) : Node ι :=
  let m := n.membership
  if id = n.cfg.id then { n with membership := { m with voter := false } }
  else
    let n := { n with membership := { m with peers := m.peers.eraseP (·.id = id) } }
    -- fewer voters may be enough for what is waiting
    if n.state = .leader then (n.beginDeparture id index).maybeAdvanceCommit else n

/-- Enters the joint stage.  The old group is the peer list of the proposer, with this node added.
-/
def adoptJoint (old new : List (PeerConfig ι)) : Node ι :=
  let n := n.restoreMembership
    { joint := true
      members := []
      old := withSelf old n.cfg.id true n.membership.voter n.cfg.witness
      new := new
      -- the entry names no commit quorum
      commitQuorum := 0 }
  if n.state ≠ .leader then n
  else
    let fresh := fun p : ι => containsPeer n.membership.peers p && (n.nextIndex p).isNone
    { n with
      nextIndex := fun p => if fresh p then some (n.log.lastLogIndex + 1) else n.nextIndex p
      matchIndex := fun p => if fresh p then some 0 else n.matchIndex p }

def adoptFinalise (members : List (PeerConfig ι)) (index : Nat) : Node ι :=
  let oldPeers := n.membership.peers
  let n := n.restoreMembership
    { joint := false, members := members, old := [], new := [], commitQuorum := 0 }
  if n.state ≠ .leader then n
  else
    let leaving := oldPeers.filter fun p => !containsPeer n.membership.peers p.id
    (leaving.foldl (fun n p => n.beginDeparture p.id index) n).maybeAdvanceCommit

def adoptConfigEntry (op : ConfigOp ι) (index : Nat) : Node ι :=
  let n := { n with membership := { n.membership with configIndex := index } }
  match op with
  | .clientTableCap _ =>
    { n with membership := { n.membership with clientTableCapReplicated := true } }
  | .commitQuorum q =>
    { n with membership := { n.membership with commitQuorumLatest := q } }.recount
  | .add peer => n.adoptAdd peer
  | .remove id => n.adoptRemove id index
  | .joint old new => n.adoptJoint old new
  | .finalise members => n.adoptFinalise members index

def adoptEntries (es : List (LogEntry ι)) : Node ι :=
  es.foldl (fun n e =>
    match e.command with
    | .config op => n.adoptConfigEntry op e.index
    | .user _ => n) n

def restoreBase : Node ι :=
  { n with membership := { n.membership.restore n.cfg.id n.membership.base with
    configIndex := n.log.snapMeta.lastIncludedIndex
    clientTableCapReplicated := n.membership.baseClientTableCap.isSome
    commitQuorumLatest := n.membership.base.commitQuorum } }

/-- Recomputes the membership from the snapshot base and the log; the flag says whether that could
be read. -/
def rebuildMembership : Node ι × Bool :=
  let n := n.restoreBase
  if n.log.first = 0 ∨ n.log.last < n.log.first then (n, true)
  else
    match n.log.entries n.log.first (n.log.last + 1) with
    | none => (n, false)
    | some es => (n.adoptEntries es, true)

/-- A node without `Config.witness` that the membership marks as a witness would
diverge. -/
def checkWitness : Node ι :=
  if n.membership.membershipWitness && !n.cfg.witness then n.fail else n

def adoptClientTableCap (capacity : Nat) : Node ι :=
  { n with
    membership := n.membership.adoptCap capacity, clientTable := n.clientTable.setCap capacity }

def applyConfigChange (op : ConfigOp ι) (index : Nat) : Node ι :=
  let n := (n.adoptConfigEntry op index).checkWitness
  match op with
  | .clientTableCap capacity =>
    let n := n.adoptClientTableCap capacity
    { n with capEntryPending := if n.capEntryPending = index then 0 else n.capEntryPending }
  | .commitQuorum q =>
    let n := { n with membership := n.membership.adoptCommitQuorum q }.recount
    { n with quorumEntryPending := if n.quorumEntryPending = index then 0 else n.quorumEntryPending }
  | .add _ => n
  | .remove id => if id = n.cfg.id then n.becomeFollower n.currentTerm none else n
  | .joint _ _ =>
    -- the new group takes over by an entry of its own
    if n.state = .leader ∧ n.membership.jointOld.isSome then
      n.appendFinaliseEntry n.membership.jointNew n.membership.jointIncludeSelf
        n.membership.jointSelfVoter
    else n
  | .finalise members =>
    if containsPeer members n.cfg.id then n else n.becomeFollower n.currentTerm none

/-! ## Departures -/

/-- Election timeouts a removed peer is given to hear of its removal. -/
def departureGraceTicks : Nat := 4

def tickDepartures : Node ι :=
  let aged := n.departing.map fun d => { d with elapsed := d.elapsed + 1 }
  let expired := aged.filter fun d => departureGraceTicks * n.cfg.electionMaxTicks ≤ d.elapsed
  (expired.map (·.peer)).foldl endDeparture { n with departing := aged }

def departingPeer (peer : ι) (req : AppendEntriesRequest ι) : Option (Node ι) :=
  (n.departing.find? (·.peer = peer)).map fun d =>
    -- how far the request reached in the log of the peer is not looked at
    if d.index ≤ req.leaderCommit then n.endDeparture peer
    else
      let n := match req.entries.getLast? with
        | some e =>
          if lookup n.matchIndex peer < e.index then
            { n with
              matchIndex := assign n.matchIndex peer (some e.index)
              nextIndex := assign n.nextIndex peer (some (e.index + 1)) }
          else n
        | none => n
      if lookup n.nextIndex peer ≤ n.log.lastLogIndex ∨ d.index ≤ n.commitIndex then
        n.replicateToPeer peer
      else n

end Node

/-! ## The calls that change the membership -/

/-- What `ReconfigureCluster` proposes: the peers of the node it is called on as the old group. -/
def reconfigureCluster (n : Node ι) (newMembers : List (PeerConfig ι)) : Option (Command ι) :=
  if (newMembers.map (·.id)).Nodup then some (.config (.joint n.membership.peers newMembers))
  else none

end Raft
