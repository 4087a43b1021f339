import Raft.Replication.Follower
import Raft.Turn.Leading

/-!
# A leader and its lease

A leader that has confirmed its leadership in a round of barriers holds a lease, and may
answer reads from it until the lease has run out.  The lease counts from when the barriers
of the round were last sent.

The lease is a matter of a few fields of a node, its desk, of the times it remembers, and
of the clock, of which nothing is assumed.  A barrier may be accepted by its peer at any
time or never.  What the rest of the node decides comes in with the events.
-/

namespace Raft

variable {ι : Type}

/-- An instant: the wall clock, and the monotonic clock if the time source has one. -/
structure Time where
  wall : Int
  mono : Option Int
  deriving DecidableEq, Repr

namespace Time

def zero : Time := ⟨0, none⟩

def isZero (t : Time) : Bool := t.wall == 0

/-- Instants are compared on the monotonic clock if both have it. -/
def before (t u : Time) : Bool :=
  match t.mono, u.mono with
  | some a, some b => a < b
  | _, _ => t.wall < u.wall

def sub (t u : Time) : Int :=
  match t.mono, u.mono with
  | some a, some b => a - b
  | _, _ => t.wall - u.wall

def add (t : Time) (d : Int) : Time := ⟨t.wall + d, t.mono.map (· + d)⟩

/-- Rounding to nothing strips the monotonic clock. -/
def round (t : Time) : Time := { t with mono := none }

end Time

/-- The wall clock has run ahead of the monotonic clock by more than the margin. -/
def leaseClockJumped (wall mono margin : Int) : Bool := margin < wall - mono

/-- The part of a node that its lease depends on. -/
structure Desk (ι : Type) where
  state : State
  currentTerm : Nat
  membership : Membership ι
  commitIndex : Nat
  leaderNopCommitted : Bool
  readBatchGen : Nat
  readBatchAcks : Option (List ι)
  readBatchIndex : Nat
  pendingReads : List Nat
  waitingReads : List Nat
  readsDone : List (Nat × Option Nat)
  transferTarget : Option ι

def Node.desk (n : Node ι) : Desk ι :=
  { state := n.state
    currentTerm := n.currentTerm
    membership := n.membership
    commitIndex := n.commitIndex
    leaderNopCommitted := n.leaderNopCommitted
    readBatchGen := n.readBatchGen
    readBatchAcks := n.readBatchAcks
    readBatchIndex := n.readBatchIndex
    pendingReads := n.pendingReads
    waitingReads := n.waitingReads
    readsDone := n.readsDone
    transferTarget := n.transferTarget }

/-- A read barrier that was sent to a peer. -/
structure Barrier (ι : Type) where
  peer : ι
  term : Nat
  gen : Nat
  sentAt : Time
  deriving DecidableEq, Repr

/-- A lease that was set: what it counts from, its term and membership, and the barriers accepted so
far. -/
structure Grant (ι : Type) where
  base : Time
  term : Nat
  membership : Membership ι
  accepted : List (Barrier ι)

/-- A read that was answered from the lease: the round that had set it, and the last round begun
before a handover. -/
structure LeaseRead where
  read : Nat
  leaseGen : Nat
  handover : Option Nat
  deriving DecidableEq, Repr

/-- A node as far as leases go: the desk, the configuration, and what has happened so far. -/
structure Lessor (ι : Type) extends Desk ι where
  leaseSendTime : Time
  leaseBase : Time
  leaseExpiry : Time
  electionTimeoutMin : Int
  leaseSafetyMargin : Int
  readings : Nat
  sent : List (Barrier ι)
  accepted : List (Barrier ι)
  grants : List (Grant ι)
  leaseGen : Nat
  handover : Option Nat
  leaseReads : List LeaseRead

namespace Lessor

def new (m : Membership ι) (term : Nat) (electionTimeoutMin leaseSafetyMargin : Int) : Lessor ι :=
  { state := .follower
    currentTerm := term
    membership := m
    commitIndex := 0
    leaderNopCommitted := false
    readBatchGen := 0
    readBatchAcks := none
    readBatchIndex := 0
    pendingReads := []
    waitingReads := []
    readsDone := []
    transferTarget := none
    leaseSendTime := .zero
    leaseBase := .zero
    leaseExpiry := .zero
    electionTimeoutMin := electionTimeoutMin
    leaseSafetyMargin := leaseSafetyMargin
    readings := 0
    sent := []
    accepted := []
    grants := []
    leaseGen := 0
    handover := none
    leaseReads := [] }

def openReadBatch (l : Lessor ι) : Lessor ι :=
  { l with
    readBatchGen := l.readBatchGen + 1
    readBatchAcks := some []
    readBatchIndex := l.commitIndex }

def resolveReadBatch (l : Lessor ι) : Lessor ι :=
  { l with
    readsDone := l.readsDone ++ l.pendingReads.map fun r => (r, some l.readBatchIndex)
    pendingReads := []
    readBatchAcks := none }

def promoteWaitingReads (l : Lessor ι) : Lessor ι :=
  { l with pendingReads := l.pendingReads ++ l.waitingReads, waitingReads := [] }

section Clock

variable (clock : Nat → Time)

def broadcastReadBarrier (l : Lessor ι) : Lessor ι :=
  { l with
    leaseSendTime := clock l.readings
    readings := l.readings + 1
    sent := l.sent ++ l.membership.peers.map fun p =>
      ⟨p.id, l.currentTerm, l.readBatchGen, clock l.readings⟩ }

/-- Sets the lease, which counts from now if the time of sending is not known. -/
def grantLease (l : Lessor ι) : Lessor ι :=
  let base := if l.leaseSendTime.isZero then clock l.readings else l.leaseSendTime
  { l with
    readings := if l.leaseSendTime.isZero then l.readings + 1 else l.readings
    leaseBase := base
    leaseExpiry := base.add (l.electionTimeoutMin - l.leaseSafetyMargin)
    grants := l.grants ++ [⟨base, l.currentTerm, l.membership, l.accepted⟩]
    leaseGen := l.readBatchGen }

def startReadBatch (l : Lessor ι) : Lessor ι :=
  let l := l.openReadBatch
  if l.membership.isSingleVoter then
    let l := (l.grantLease clock).resolveReadBatch
    if l.waitingReads.isEmpty then l
    else (l.promoteWaitingReads.openReadBatch.grantLease clock).resolveReadBatch
  else l.broadcastReadBarrier clock

def confirmReadBatch (l : Lessor ι) : Lessor ι :=
  let l := (l.grantLease clock).resolveReadBatch
  if l.waitingReads.isEmpty then l else l.promoteWaitingReads.startReadBatch clock

def Counts (l : Lessor ι) (gen term : Nat) : Prop :=
  gen ≠ 0 ∧ gen = l.readBatchGen ∧ term = l.currentTerm
  deriving Decidable

variable [DecidableEq ι]

def countReadAck (l : Lessor ι) (peer : ι) (gen term : Nat) : Lessor ι :=
  if l.Counts gen term then
    let acks := peer :: l.readBatchAcks.getD []
    let l := { l with readBatchAcks := some acks }
    if l.membership.acked .commitQuorum acks then l.confirmReadBatch clock else l
  else l

omit [DecidableEq ι] in
def leaseValid (l : Lessor ι) (now : Time) : Bool × Lessor ι :=
  if l.leaseExpiry.isZero || !now.before l.leaseExpiry then (false, l)
  else if decide (0 < l.leaseSafetyMargin) &&
      leaseClockJumped (now.round.sub l.leaseBase.round) (now.sub l.leaseBase)
        l.leaseSafetyMargin then
    (false, { l with leaseExpiry := .zero })
  else (true, l)

def readFromLease (l : Lessor ι) (read : Nat) : Lessor ι :=
  let now := clock l.readings
  match { l with readings := l.readings + 1 }.leaseValid now with
  | (true, l) =>
    { l with
      readsDone := l.readsDone ++ [(read, some l.commitIndex)]
      leaseReads := l.leaseReads ++ [⟨read, l.leaseGen, l.handover⟩] }
  | (false, l) => { l with readsDone := l.readsDone ++ [(read, none)] }

def handleReadIndex (l : Lessor ι) (read : Nat) (useLease : Bool) : Lessor ι :=
  if l.state ≠ .leader then { l with readsDone := l.readsDone ++ [(read, none)] }
  else if !l.leaderNopCommitted then
    if useLease then { l with readsDone := l.readsDone ++ [(read, none)] }
    else { l with pendingReads := l.pendingReads ++ [read] }
  else if l.membership.isSingleVoter then
    { l with readsDone := l.readsDone ++ [(read, some l.commitIndex)] }
  else if useLease then l.readFromLease clock read
  else if l.readBatchAcks.isSome then { l with waitingReads := l.waitingReads ++ [read] }
  else startReadBatch clock { l with pendingReads := l.pendingReads ++ [read] }

/-- The commit index moves to `advances`, if it moves; with the first entry of the term waiting
reads are taken up. -/
def advanceCommit (l : Lessor ι) (advances : Option Nat) : Lessor ι :=
  match advances with
  | none => l
  | some idx =>
    if l.state ≠ .leader then l
    else
      let l := { l with commitIndex := max l.commitIndex idx }
      if l.leaderNopCommitted then l
      else
        let l := { l with leaderNopCommitted := true }
        if l.pendingReads.isEmpty then l else l.startReadBatch clock

def tickHeartbeat (l : Lessor ι) : Lessor ι :=
  if l.state = .leader ∧ l.leaderNopCommitted = true ∧ l.pendingReads ≠ [] then
    l.broadcastReadBarrier clock
  else l

end Clock

def sendTimeoutNow (l : Lessor ι) : Lessor ι := { l with handover := some l.readBatchGen }

section Transfer

variable [DecidableEq ι]

def FinishesTransfer (l : Lessor ι) (peer : ι) (caughtUp : Bool) : Prop :=
  l.transferTarget = some peer ∧ caughtUp = true

instance (l : Lessor ι) (peer : ι) (caughtUp : Bool) : Decidable (l.FinishesTransfer peer caughtUp) :=
  inferInstanceAs (Decidable (_ ∧ _))

def maybeFinishTransfer (l : Lessor ι) (peer : ι) (caughtUp : Bool) : Lessor ι :=
  if l.FinishesTransfer peer caughtUp then { l.sendTimeoutNow with transferTarget := none } else l

def handleLeadershipTransfer (l : Lessor ι) (target : ι) (caughtUp : Bool) : Lessor ι :=
  if l.state ≠ .leader ∨ l.transferTarget.isSome then l
  else
    match l.membership.peers.find? (·.id = target) with
    | none => l
    | some peer =>
      if peer.witness || !peer.voter then l
      else if caughtUp then { l.sendTimeoutNow with transferTarget := none }
      else { l with transferTarget := some target }

end Transfer

def drainPendingReads (l : Lessor ι) : Lessor ι :=
  { l with
    readsDone := l.readsDone ++ (l.pendingReads ++ l.waitingReads).map fun r => (r, none)
    pendingReads := []
    waitingReads := []
    readBatchAcks := none }

def applyFollowerTransition (l : Lessor ι) : Lessor ι :=
  { l.drainPendingReads with
    state := .follower
    leaderNopCommitted := false
    transferTarget := none
    leaseExpiry := .zero
    leaseSendTime := .zero
    leaseBase := .zero
    handover := none }

def becomeFollower (l : Lessor ι) (term : Nat) : Lessor ι :=
  applyFollowerTransition { l with currentTerm := max l.currentTerm term }

def becomeCandidate (l : Lessor ι) : Lessor ι :=
  { l with state := .candidate, currentTerm := l.currentTerm + 1 }

def becomeLeader (clock : Nat → Time) (l : Lessor ι) (advances : Option Nat) : Lessor ι :=
  if l.state ≠ .candidate then l
  else advanceCommit clock { l with state := .leader, leaderNopCommitted := false } advances

def handleAppendResult [DecidableEq ι] (clock : Nat → Time) (l : Lessor ι) (peer : ι) (gen term : Nat)
    (advances : Option Nat) (caughtUp : Bool) : Lessor ι :=
  if l.currentTerm < term then l.becomeFollower term
  else if l.state ≠ .leader then l
  else
    ((l.advanceCommit clock advances).maybeFinishTransfer peer caughtUp).countReadAck clock peer gen
      term

/-- What can happen; some events are about the `k`-th barrier and the answer to it. -/
inductive Event (ι : Type)
  | read (read : Nat) (useLease : Bool)
  | accept (k : Nat)
  | answer (k : Nat) (advances : Option Nat) (caughtUp : Bool)
  | progress (peer : ι) (term : Nat) (advances : Option Nat) (caughtUp : Bool)
  | advance (idx : Nat)
  | heartbeat
  | transfer (target : ι) (caughtUp : Bool)
  | transferTimeout
  | becomeFollower (term : Nat)
  | becomePreCandidate
  | becomeCandidate
  | becomeLeader (advances : Option Nat)
  | reconfigure (m : Membership ι)

variable [DecidableEq ι]

def answered (l : Lessor ι) (k : Nat) : Option (Barrier ι) :=
  l.sent[k]?.filter (· ∈ l.accepted)

def step (clock : Nat → Time) (l : Lessor ι) : Event ι → Lessor ι
  | .read read useLease => l.handleReadIndex clock read useLease
  | .accept k => { l with accepted := l.accepted ++ l.sent[k]?.toList }
  | .answer k advances caughtUp =>
    match l.answered k with
    | some b => l.handleAppendResult clock b.peer b.gen b.term advances caughtUp
    | none => l
  | .progress peer term advances caughtUp =>
    l.handleAppendResult clock peer 0 term advances caughtUp
  | .advance idx => l.advanceCommit clock (some idx)
  | .heartbeat => l.tickHeartbeat clock
  | .transfer target caughtUp => l.handleLeadershipTransfer target caughtUp
  | .transferTimeout => { l with transferTarget := none }
  | .becomeFollower term => l.becomeFollower term
  | .becomePreCandidate => { l with state := .preCandidate }
  | .becomeCandidate => l.becomeCandidate
  | .becomeLeader advances => l.becomeLeader clock advances
  | .reconfigure m => { l with membership := m }

def run (clock : Nat → Time) (l : Lessor ι) (es : List (Event ι)) : Lessor ι :=
  es.foldl (step clock) l

def Along (clock : Nat → Time) (P : Lessor ι → Event ι → Prop) : Lessor ι → List (Event ι) → Prop
  | _, [] => True
  | l, e :: es => P l e ∧ Along clock P (l.step clock e) es

instance Along.decidable {clock : Nat → Time} {P : Lessor ι → Event ι → Prop}
    [∀ l e, Decidable (P l e)] : ∀ (l : Lessor ι) (es : List (Event ι)), Decidable (Along clock P l es)
  | _, [] => isTrue trivial
  | l, e :: es =>
    have : Decidable (Along clock P (l.step clock e) es) := Along.decidable _ es
    inferInstanceAs (Decidable (_ ∧ _))

theorem Along.invariant {clock : Nat → Time} {P : Lessor ι → Event ι → Prop} {I : Lessor ι → Prop}
    (hkeep : ∀ {l e}, I l → P l e → I (l.step clock e)) {l : Lessor ι} {es : List (Event ι)}
    (h : Along clock P l es) (hI : I l) : I (l.run clock es) := by
  induction es generalizing l with
  | nil => exact hI
  | cons e es ih => exact ih h.2 (hkeep hI h.1)

/-- The lessor has the desk of the node. -/
def Of (l : Lessor ι) (n : Node ι) : Prop := l.toDesk = n.desk

namespace Of

variable {l : Lessor ι} {n : Node ι} (clock : Nat → Time)

omit [DecidableEq ι] in
theorem ite {c c' : Prop} [Decidable c] [Decidable c'] {a b : Lessor ι} {a' b' : Node ι}
    (hc : c ↔ c') (ha : c' → a.Of a') (hb : ¬ c' → b.Of b') :
    (if c then a else b).Of (if c' then a' else b') := by
  by_cases h : c'
  · rw [if_pos (hc.mpr h), if_pos h]
    exact ha h
  · rw [if_neg (mt hc.mp h), if_neg h]
    exact hb h

omit [DecidableEq ι] in
theorem congr {n' : Node ι} (h : l.Of n) (hn : n'.desk = n.desk) : l.Of n' :=
  Eq.trans h hn.symm

omit [DecidableEq ι] in
theorem startReadBatch (h : l.Of n) : (l.startReadBatch clock).Of n.startReadBatch := by
  rcases l with ⟨d, _⟩
  obtain rfl : d = n.desk := h
  exact .ite Iff.rfl (fun _ => .ite Iff.rfl (fun _ => rfl) fun _ => rfl) fun _ => rfl

omit [DecidableEq ι] in
theorem confirmReadBatch (h : l.Of n) : (l.confirmReadBatch clock).Of n.confirmReadBatch := by
  rcases l with ⟨d, _⟩
  obtain rfl : d = n.desk := h
  exact .ite Iff.rfl (fun _ => rfl) fun _ => startReadBatch clock rfl

theorem countReadAck (h : l.Of n) (peer : ι) (req : AppendEntriesRequest ι)
    (resp : AppendEntriesResponse) :
    (l.countReadAck clock peer req.readBarrier resp.term).Of (n.countReadAck peer req resp) := by
  rcases l with ⟨d, _⟩
  obtain rfl : d = n.desk := h
  exact .ite Iff.rfl (fun _ => .ite Iff.rfl (fun _ => confirmReadBatch clock rfl) fun _ => rfl)
    fun _ => rfl

omit [DecidableEq ι] in
theorem handleReadIndex (h : l.Of n) (read : Nat) :
    (l.handleReadIndex clock read false).Of (n.handleReadIndex read) := by
  rcases l with ⟨d, _⟩
  obtain rfl : d = n.desk := h
  refine .ite Iff.rfl (fun _ => rfl) fun _ => .ite Iff.rfl (fun _ => rfl) fun _ =>
    .ite Iff.rfl (fun _ => rfl) fun _ => ?_
  rw [if_neg Bool.false_ne_true]
  exact .ite Iff.rfl (fun _ => rfl) fun _ => startReadBatch clock rfl

def advances (n : Node ι) : Option Nat :=
  if n.state ≠ .leader ∨ n.termStartIndex = 0 then none
  else n.highestCommitted (max (n.commitIndex + 1) n.termStartIndex)

theorem maybeAdvanceCommit (h : l.Of n) :
    (l.advanceCommit clock (advances n)).Of n.maybeAdvanceCommit := by
  unfold Lessor.advanceCommit Node.maybeAdvanceCommit advances
  by_cases hidle : n.state ≠ .leader ∨ n.termStartIndex = 0
  · rw [if_pos hidle, if_pos hidle]
    exact h
  · rw [if_neg hidle, if_neg hidle]
    cases hidx : n.highestCommitted (max (n.commitIndex + 1) n.termStartIndex) with
    | none => exact h
    | some idx =>
      have hlt : n.commitIndex < idx := by
        have := (Node.highestCommitted_spec hidx).1
        omega
      obtain ⟨log, rec, a, heq, -⟩ := Node.setCommitIndex_notifyApply_cases n hlt
      dsimp only
      rw [heq]
      rcases l with ⟨d, _⟩
      obtain rfl : d = n.desk := h
      have hlead : n.desk.state = .leader := not_not.mp (not_or.mp hidle).1
      rw [if_neg (not_not_intro hlead)]
      have hmax : max n.desk.commitIndex idx = idx := max_eq_right hlt.le
      rw [hmax]
      refine .ite Iff.rfl (fun _ => rfl) fun _ => .ite Iff.rfl (fun _ => rfl) fun _ => ?_
      exact startReadBatch clock rfl

omit [DecidableEq ι] in
theorem tickHeartbeat (h : l.Of n) (hlead : n.state = .leader)
    (hdue : ¬ n.heartbeatElapsed + 1 < n.cfg.heartbeatTimeout) :
    (l.tickHeartbeat clock).Of n.tickHeartbeat := by
  rcases l with ⟨d, _⟩
  obtain rfl : d = n.desk := h
  unfold Lessor.tickHeartbeat Node.tickHeartbeat
  rw [if_neg hdue, Node.broadcastHeartbeat_eq]
  refine .ite ?_ (fun _ => rfl) fun _ => rfl
  simp [Node.sendAll, Node.desk, hlead]

theorem maybeFinishTransfer (h : l.Of n) (peer : ι) :
    (l.maybeFinishTransfer peer (decide (n.log.lastLogIndex ≤ lookup n.matchIndex peer))).Of
      (n.maybeFinishTransfer peer) := by
  rcases l with ⟨d, _⟩
  obtain rfl : d = n.desk := h
  refine .ite ?_ (fun _ => rfl) fun _ => rfl
  rw [FinishesTransfer, decide_eq_true_iff]
  exact Iff.rfl

theorem desk_replicateToPeer [Sized ι] (n : Node ι) (peer : ι) : (n.replicateToPeer peer).desk = n.desk := by
  unfold Node.replicateToPeer
  dsimp only
  split_ifs
  · rfl
  · unfold Node.sendSnapshotToPeer
    split
    · split_ifs <;> rfl
    · rfl
  · rfl
  · split <;> rfl

theorem handleLeadershipTransfer [Sized ι] (h : l.Of n) (target : ι) :
    (l.handleLeadershipTransfer target
        (decide (n.log.lastLogIndex ≤ lookup n.matchIndex target))).Of
      (n.handleLeadershipTransfer target) := by
  rcases l with ⟨d, _⟩
  obtain rfl : d = n.desk := h
  refine .ite Iff.rfl (fun _ => rfl) fun _ => ?_
  have hpeers : n.desk.membership.peers = n.membership.peers := rfl
  rw [hpeers]
  cases n.membership.peers.find? (·.id = target) with
  | none => rfl
  | some peer =>
    refine .ite Iff.rfl (fun _ => rfl) fun _ => .ite decide_eq_true_iff (fun _ => rfl) fun _ => ?_
    refine congr ?_ (desk_replicateToPeer _ target)
    rfl

theorem handleSuccess [Sized ι] (h : l.Of n) (hlead : n.state = .leader) (peer : ι)
    (req : AppendEntriesRequest ι) (resp : AppendEntriesResponse)
    (hterm : ¬ n.currentTerm < resp.term) :
    let m := Node.recordProgress { n with quorumAcks := peer :: n.quorumAcks } peer req
    let m' := m.maybeAdvanceCommit
    (l.handleAppendResult clock peer req.readBarrier resp.term (advances m)
        (decide (m'.log.lastLogIndex ≤ lookup m'.matchIndex peer))).Of
      (n.handleSuccess peer req resp) := by
  intro m m'
  have hm : l.Of m := by
    refine h.congr ?_
    unfold m Node.recordProgress
    split <;> rfl
  have hterm' : ¬ l.currentTerm < resp.term := by
    rwa [show l.currentTerm = n.currentTerm from congrArg Desk.currentTerm h]
  have hlead' : ¬ l.state ≠ .leader :=
    not_not_intro ((congrArg Desk.state h).trans hlead)
  rw [handleAppendResult, if_neg hterm', if_neg hlead']
  -- the three handlers of the node, one after the other
  have hcounted := countReadAck clock (maybeFinishTransfer (maybeAdvanceCommit clock hm) peer)
    peer req resp
  unfold Node.handleSuccess
  dsimp only
  split_ifs
  · exact hcounted.congr (desk_replicateToPeer _ peer)
  · exact hcounted

theorem becomeFollower (h : l.Of n) (term : Nat) (leaderID : Option ι) :
    (l.becomeFollower term).Of (n.becomeFollower term leaderID) := by
  rcases l with ⟨d, _⟩
  obtain rfl : d = n.desk := h
  unfold Lessor.becomeFollower Node.becomeFollower
  by_cases hterm : n.currentTerm < term
  · simp only [if_pos hterm]
    have hmax : max n.desk.currentTerm term = term := max_eq_right (Nat.le_of_lt hterm)
    rw [hmax]
    rfl
  · simp only [if_neg hterm]
    have hmax : max n.desk.currentTerm term = n.desk.currentTerm := max_eq_left (Nat.le_of_not_lt hterm)
    rw [hmax]
    rfl

end Of

end Lessor

end Raft
