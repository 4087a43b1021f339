import Mathlib.Logic.Relation
import Raft.Replication.Follower
import Raft.Turn.Side

/-!
# Turns and moves

The event loop takes up one input after the other.  What it does with one is a sequence of
simple changes, the moves below; everything that only decides when a node acts is a quiet
move.  A property that every move keeps is kept by the whole event loop, so the handlers
have to be taken apart only once.

A move names the input wherever the change is justified by it, and carries the checks the
handler has made before.  Work that was waiting for a write is part of the input that
completes the write.

## Main definitions

* `Input`: what a turn takes up.
* `Node.Answers`: an answer that is sent or held back.
* `Node.Move`, `Node.Moves`: one change, and a sequence of them.
-/

namespace Raft

variable {ι : Type}

/-- What the event loop takes up in one turn. -/
inductive Input (ι : Type)
  | msg (m : Msg ι)
  | lost (m : Msg ι)
  | propose (cmds : List (Command ι))
  | written (d : WriteDone) (due kept : List (DeferredWrite ι))
  | applied (r : ApplyResult ι)
  | snapshot
  | timer

/-- Messages that promise nothing about terms, votes or entries. -/
def Msg.Harmless : Msg ι → Prop
  | .requestVote _ _ req => req.preVote = true
  | .requestVoteReply _ _ req resp => req.preVote = true ∨ resp.voteGranted = false
  | .timeoutNow _ _ => True
  | .readIndex _ _ _ => True
  | _ => False

/-- Work whose result promises nothing. -/
def Deferred.Harmless : Deferred ι → Prop
  | .requestVoteReply _ req resp => req.preVote = true ∨ resp.voteGranted = false
  | .proposals _ => True
  | _ => False

/-- The message that held-back work sends. -/
def Deferred.answer (self : ι) : Deferred ι → List (Msg ι)
  | .requestVoteReply dst req resp => [.requestVoteReply self dst req resp]
  | .appendEntriesReply dst req resp => [.appendEntriesReply self dst req resp]
  | .installSnapshotReply dst req resp => [.installSnapshotReply self dst req resp]
  | .campaign _ => []
  | .proposals _ => []

/-- The memberships count alike. -/
structure Membership.SameVoters (m m' : Membership ι) : Prop where
  peers : m'.peers = m.peers
  voter : m'.voter = m.voter
  jointOld : m'.jointOld = m.jointOld
  jointNew : m'.jointNew = m.jointNew
  jointIncludeSelf : m'.jointIncludeSelf = m.jointIncludeSelf
  jointSelfVoter : m'.jointSelfVoter = m.jointSelfVoter
  jointSelfVoterOld : m'.jointSelfVoterOld = m.jointSelfVoterOld
  base : m'.base = m.base

theorem Membership.SameVoters.refl (m : Membership ι) : m.SameVoters m :=
  ⟨rfl, rfl, rfl, rfl, rfl, rfl, rfl, rfl⟩

def ConfigOp.changesMembers : ConfigOp ι → Bool
  | .clientTableCap _ => false
  | .commitQuorum _ => false
  | _ => true

namespace Input

def Reconfigures : Input ι → Prop
  | .applied r => ∃ op, r.configCmd = some op ∧ op.changesMembers = true
  | .snapshot => True
  | _ => False

/-- The input can change anything about the membership. -/
def Adopts : Input ι → Prop
  | .propose _ => True
  | .applied _ => True
  | .snapshot => True
  | _ => False

theorem Reconfigures.adopts {inp : Input ι} (h : inp.Reconfigures) : inp.Adopts := by
  cases inp <;> first | exact h | exact trivial

def Sets (n : Node ι) (q : Nat) : Input ι → Prop
  | .applied r => r.configCmd = some (.commitQuorum q)
  | .propose cmds => .config (.commitQuorum q) ∈ cmds ∨
      q = n.cfg.commitQuorum ∧ q ≠ 0 ∧ n.membership.commitQuorumAgreed = false
  | _ => False

def Appends : Input ι → Prop
  | .msg (.requestVoteReply _ _ _ _) => True
  | .propose _ => True
  | .written _ _ _ => True
  | .applied _ => True
  | _ => False

/-- The input is not about what has been applied or captured. -/
def Calm : Input ι → Prop
  | .applied _ => False
  | .snapshot => False
  | _ => True

def Plain : Input ι → Prop
  | .propose cmds => ∀ cmd ∈ cmds, cmd.isDedupCmd = false
  | _ => True

/-- What the input is answered with, votes and acknowledgements of entries apart. -/
def AnsweredWith (inp : Input ι) : Deferred ι → Prop
  | .appendEntriesReply src req resp =>
    resp.success = false ∧ ∃ dst, inp = .msg (.appendEntries src dst req)
  | .installSnapshotReply src req _ =>
    inp = .snapshot ∨ ∃ dst, inp = .msg (.installSnapshot src dst req)
  | _ => False

end Input

/-- What makes a node stand for election; only the timer asks whether it has a vote. -/
def Input.Calls (inp : Input ι) (voter : Bool) : Prop :=
  match inp with
  | .timer => voter = true
  | .msg (.requestVoteReply ..) | .msg (.timeoutNow ..) => True
  | _ => False

namespace Node

/-! ## Answers -/

/-- An answer has been sent, or is held back until the write `seq` has completed. -/
structure Answers (n : Node ι) (seq : Nat) (work : Deferred ι) (n' : Node ι) : Prop where
  core : n'.toCore = { n.toCore with deferredWrites := n'.deferredWrites, out := n'.out }
  sent : (seq = 0 ∨ seq ≤ n.completedWriteSeq) ∧ n'.out = n.out ++ work.answer n.cfg.id ∧
      n'.deferredWrites = n.deferredWrites ∨
    n.completedWriteSeq < seq ∧ n'.out = n.out ∧
      n'.deferredWrites = n.deferredWrites ++ [⟨seq, work⟩]
  shell : n'.shell = n.shell

theorem afterWrite_answers (n : Node ι) (seq : Nat) (work : Deferred ι) :
    n.Answers seq work (n.afterWrite seq work (·.sendAll (work.answer n.cfg.id))) := by
  rcases afterWrite_cases n seq work (·.sendAll (work.answer n.cfg.id)) with
    ⟨hdone, heq⟩ | ⟨hlate, heq⟩
  · rw [heq]
    exact ⟨rfl, .inl ⟨hdone, rfl, rfl⟩, rfl⟩
  · rw [heq]
    exact ⟨rfl, .inr ⟨hlate.2, rfl, rfl⟩, rfl⟩

theorem replyVoteWhenDurable_answers (n : Node ι) (dst : Asker ι) (req : RequestVoteRequest ι)
    (granted : Bool) : n.Answers (n.sendGate 0) (.requestVoteReply dst req ⟨n.currentTerm, granted⟩)
      (n.replyVoteWhenDurable dst req granted) :=
  afterWrite_answers n _ _

theorem replyAppendWhenDurable_answers (n : Node ι) (dst : Asker ι) (req : AppendEntriesRequest ι)
    (resp : AppendEntriesResponse) (seq : Nat) :
    n.Answers (n.sendGate seq) (.appendEntriesReply dst req resp)
      (n.replyAppendWhenDurable dst req resp seq) :=
  afterWrite_answers n _ _

theorem replySnapshotWhenDurable_answers (n : Node ι) (dst : Asker ι)
    (req : InstallSnapshotRequest ι) (resp : InstallSnapshotResponse) :
    n.Answers (n.sendGate 0) (.installSnapshotReply dst req resp)
      (n.replySnapshotWhenDurable dst req resp) :=
  afterWrite_answers n _ _

/-! ## Moves -/

variable [DecidableEq ι]

/-- The members stay, and the commit quorum is one the input brings, unless the input is about the
members. -/
def MembershipFollows (inp : Input ι) (n : Node ι) (m : Membership ι) : Prop :=
  inp.Reconfigures ∨
    inp.Adopts ∧ n.membership.SameVoters m ∧
      (m.commitQuorumAgreed = false → n.membership.commitQuorumAgreed = false) ∧
      (m.commitQuorumLatest = n.membership.commitQuorumLatest ∨
        inp.Sets n m.commitQuorumLatest) ∧
      (m.commitQuorumApplied = n.membership.commitQuorumApplied ∨
        inp.Sets n m.commitQuorumApplied)

/-- The commands a leader may put into its log. -/
def MayAppend (inp : Input ι) (n : Node ι) (cmd : Command ι) : Prop :=
  cmd = .noop ∨ (∃ c, cmd = .config (.clientTableCap c)) ∨
    (∃ cmds, inp = .propose cmds ∧ (cmd ∈ cmds ∨ cmd = .config (.commitQuorum n.cfg.commitQuorum) ∧
      n.cfg.commitQuorum ≠ 0 ∧ n.membership.commitQuorumAgreed = false)) ∨
    n.membership.jointOld.isSome ∧ ∃ members, cmd = .config (.finalise members)

variable [Sized ι]

/-- The reasons for a candidate to start leading. -/
def Wins (inp : Input ι) (n : Node ι) : Prop :=
  (n.receivedVoteSet ≠ [] ∧ n.membership.electionWon n.receivedVoteSet = true ∧
      ∃ peer dst req resp, inp = .msg (.requestVoteReply peer dst req resp)) ∨
    (n.membership.isSingleVoter = true ∧ ∃ d due kept seq, inp = .written d due kept ∧
      ⟨seq, .campaign n.currentTerm⟩ ∈ due)

omit [Sized ι] in
theorem Wins.appends {inp : Input ι} {n : Node ι} (h : n.Wins inp) : inp.Appends := by
  rcases h with ⟨-, -, peer, dst, req, resp, rfl⟩ | ⟨-, d, due, kept, seq, rfl, -⟩ <;> exact trivial

def MayStand (inp : Input ι) (n : Node ι) : Prop :=
  (n.cfg.witness = false ∨ n.state ≠ .follower) ∧ inp.Calls n.membership.voter

/-- One change the event loop makes while it takes up `inp`. -/
inductive Move (inp : Input ι) : Node ι → Node ι → Prop
  /- Timers, throttles and the like. -/
  | quiet {n n' : Node ι} (h : n'.toCore = n.toCore) (hs : n'.shell = n.shell) : Move inp n n'
  | fail (n : Node ι) : Move inp n n.fail
  | send (n : Node ι) (msgs : List (Msg ι)) (h : ∀ msg ∈ msgs, msg.Harmless) :
      Move inp n (n.sendAll msgs)
  | hold (n : Node ι) (d : DeferredWrite ι) (h : d.work.Harmless) :
      Move inp n { n with deferredWrites := n.deferredWrites ++ [d] }
  /- Terms and votes. -/
  | demote (n : Node ι) (leaderID : Option ι) : Move inp n (n.applyFollowerTransition leaderID)
  | adoptTerm (n : Node ι) (term : Nat) (hterm : n.currentTerm < term)
      (hstate : n.state = .follower) : Move inp n (n.saveTerm term none)
  | grant {n n' : Node ι} (src : Asker ι) (dst : ι) (req : RequestVoteRequest ι)
      (hinp : inp = .msg (.requestVote src dst req)) (hpre : req.preVote = false)
      (hvoter : n.membership.voter = true)
      (hlog : n.log.isUpToDate req.lastLogIndex req.lastLogTerm = true)
      (hterm : n.currentTerm < req.term ∧ n.state = .follower ∨
        n.currentTerm = req.term ∧ (n.votedFor = none ∨ n.votedFor = some req.candidateID))
      (h : (n.saveTerm req.term (some req.candidateID)).Answers (n.log.nextSeq + 1)
        (.requestVoteReply src req ⟨req.term, true⟩) n') : Move inp n n'
  | prestand (n : Node ι) (hstands : n.MayStand inp) :
      Move inp n { n with
        state := .preCandidate, nextIndex := fun _ => none, matchIndex := fun _ => none
        receivedVoteSet := [] }
  | stand (n : Node ι) (hstands : n.MayStand inp) :
      Move inp n { n.saveTerm (n.currentTerm + 1) (some n.cfg.id) with
        state := .candidate, nextIndex := fun _ => none, matchIndex := fun _ => none
        receivedVoteSet := []
        deferredWrites := n.deferredWrites ++
          [⟨n.log.nextSeq + 1, .campaign (n.currentTerm + 1)⟩] }
  | tally (n : Node ι) (peer : ι) (dst : Asker ι) (req : RequestVoteRequest ι)
      (resp : RequestVoteResponse) (hinp : inp = .msg (.requestVoteReply peer dst req resp))
      (hboot : n.boot = dst.boot) (hgranted : resp.voteGranted = true)
      (hstate : n.state = .preCandidate ∧ req.preVote = true ∨
        n.state = .candidate ∧ req.preVote = false ∧ resp.term = n.currentTerm) :
      Move inp n (n.recordVote peer)
  | askVotes (n : Node ι) (d : WriteDone) (due kept : List (DeferredWrite ι)) (seq : Nat)
      (hinp : inp = .written d due kept) (hdue : ⟨seq, .campaign n.currentTerm⟩ ∈ due)
      (hstate : n.state = .candidate) : Move inp n (n.broadcastRequestVote false)
  | lead (n : Node ι) (hstate : n.state = .candidate) (hwon : n.Wins inp) :
      Move inp n { n with
        state := .leader
        nextIndex := fun p => if (n.membership.peers.map (·.id)).contains p then
          some (n.log.lastLogIndex + 1) else none
        matchIndex := fun p => if (n.membership.peers.map (·.id)).contains p then some 0 else none
        log := (n.log.append [⟨n.log.lastLogIndex + 1, n.currentTerm, .noop⟩]).2
        termStartIndex := n.log.lastLogIndex + 1
        departing := []
        leaderNopCommitted := false }
  /- What a leader does. -/
  | append (n : Node ι) (es : List (LogEntry ι)) (hstate : n.state = .leader) (hne : es ≠ [])
      (hterm : ∀ e ∈ es, e.term = n.currentTerm) (hcmd : ∀ e ∈ es, n.MayAppend inp e.command)
      (hindex : n.cfg.commitQuorum = 0 ∨ n.membership.commitQuorumAgreed = true ∨ inp.Plain →
        Contiguous (n.log.lastLogIndex + 1) es) (hinp : inp.Appends) :
      Move inp n { n with log := (n.log.append es).2 }
  | pend (n : Node ι) (i : Nat) (hinp : inp.Appends) : Move inp n { n with pendingConfigIndex := i }
  | rounds {n n' : Node ι} (h : n.OnlyReads n') (hreads : n.Attached → n'.Attached) : Move inp n n'
  | countAck (n : Node ι) (acks : Option (List ι)) (peer : ι) (dst : Asker ι)
      (req : AppendEntriesRequest ι) (resp : AppendEntriesResponse)
      (hinp : inp = .msg (.appendEntriesReply peer dst req resp)) :
      Move inp n { n with readBatchAcks := acks }
  | sendAppends (n : Node ι) (msgs : List (Msg ι))
      (hstate : n.state = .leader ∨ ∃ src dst req, inp = .lost (.installSnapshot src dst req))
      (h : ∀ msg ∈ msgs, ∃ peer req, n.Builds peer req ∧ msg = .appendEntries n.asker peer req) :
      Move inp n (n.sendAll msgs)
  | sendSnapshots (n : Node ι) (snap : Snapshot ι) (msgs : List (Msg ι))
      (hsnap : n.log.w.storage.snap = some snap)
      (h : ∀ msg ∈ msgs, ∃ peer req, msg = .installSnapshot n.asker peer req ∧
        req.term = n.currentTerm ∧ req.leaderID = n.cfg.id ∧ req.position = snap.position ∧
        (req.snap = snap ∨ req.snap = witnessSnapshot snap) ∧
        n.log.canDescribe (predIndex (lookup n.nextIndex peer)) = false) :
      Move inp n (n.sendAll msgs)
  | commit (n : Node ι) (idx : Nat) (hstate : n.state = .leader) (hstart : n.termStartIndex ≠ 0)
      (hlo : n.termStartIndex ≤ idx) (hgt : n.commitIndex < idx) (hhi : idx ≤ n.log.lastLogIndex)
      (hquorum : n.committedAt idx = true) : Move inp n { n with commitIndex := idx }
  | raiseMatch (n : Node ι) (peer : ι) (dst : Asker ι) (req : AppendEntriesRequest ι)
      (resp : AppendEntriesResponse) (e : LogEntry ι)
      (hinp : inp = .msg (.appendEntriesReply peer dst req resp)) (hboot : n.boot = dst.boot)
      (hstate : n.state = .leader) (hok : resp.success = true) (hlast : req.entries.getLast? = some e) :
      Move inp n { n with matchIndex := assign n.matchIndex peer (some e.index) }
  | raiseNext (n : Node ι) (peer : ι) (dst : Asker ι) (req : AppendEntriesRequest ι)
      (resp : AppendEntriesResponse) (e : LogEntry ι)
      (hinp : inp = .msg (.appendEntriesReply peer dst req resp)) (hboot : n.boot = dst.boot)
      (hstate : n.state = .leader) (hok : resp.success = true) (hlast : req.entries.getLast? = some e) :
      Move inp n { n with nextIndex := assign n.nextIndex peer (some (e.index + 1)) }
  | backtrack (n : Node ι) (peer : ι) (dst : Asker ι) (req : AppendEntriesRequest ι)
      (resp : AppendEntriesResponse)
      (hinp : inp = .msg (.appendEntriesReply peer dst req resp)) (hboot : n.boot = dst.boot)
      (hstate : n.state = .leader) (hno : resp.success = false)
      (hhint : ¬ (resp.conflictIndex = 0 ∧ resp.conflictTerm = 0)) :
      Move inp n { n with nextIndex := assign n.nextIndex peer (some (n.backtrackTo peer resp)) }
  | snapshotMatch (n : Node ι) (peer : ι) (dst : Asker ι) (req : InstallSnapshotRequest ι)
      (resp : InstallSnapshotResponse)
      (hinp : inp = .msg (.installSnapshotReply peer dst req resp)) (hboot : n.boot = dst.boot)
      (hstate : n.state = .leader) :
      Move inp n { n with
        nextIndex := assign n.nextIndex peer (some (req.position.lastIncludedIndex + 1))
        matchIndex := assign n.matchIndex peer (some req.position.lastIncludedIndex) }
  | nextBehindMatch (n : Node ι) (peer : ι) (hstate : n.state = .leader) :
      Move inp n { n with nextIndex := assign n.nextIndex peer (some (lookup n.matchIndex peer + 1)) }
  | track (n : Node ι) (fresh : ι → Bool) (hstate : n.state = .leader)
      (hinp : inp.Reconfigures) :
      Move inp n { n with
        nextIndex := fun p => if fresh p then some (n.log.lastLogIndex + 1) else n.nextIndex p
        matchIndex := fun p => if fresh p then some 0 else n.matchIndex p }
  | untrack (n : Node ι) (peers : List ι) (hdep : n.departing ≠ []) :
      Move inp n { n with
        nextIndex := fun p => if peers.contains p then none else n.nextIndex p
        matchIndex := fun p => if peers.contains p then none else n.matchIndex p
        departing := n.departing.filter fun d => !peers.contains d.peer }
  | depart (n : Node ι) (departing : List (Departure ι))
      (h : inp.Reconfigures ∨ (n.departing = [] → departing = [])) :
      Move inp n { n with departing := departing }
  | member (n : Node ι) (m : Membership ι) (h : n.MembershipFollows inp m) :
      Move inp n { n with membership := m }
  /- What a follower does. -/
  | accept {n n' : Node ι} (src : Asker ι) (dst : ι) (req : AppendEntriesRequest ι)
      (hinp : inp = .msg (.appendEntries src dst req)) (hterm : n.currentTerm = req.term)
      (hstate : n.state = .follower) (hadm : n.Admits req)
      (h : n' = n.acceptEntries src req (n.received req)) : Move inp n n'
  | answer {n n' : Node ι} {seq : Nat} {work : Deferred ι} (h : n.Answers seq work n')
      (hinp : inp.AnsweredWith work) : Move inp n n'
  /- The commit index, the apply loop and snapshots. -/
  | record (n : Node ι) : Move inp n { n with
      log := n.log.enqueue (.commitIndex (min n.commitIndex n.log.stableIndex)) }
  | notify (n : Node ι) : Move inp n { n with apply := { n.apply with
      commitNotify := some (min n.commitIndex n.log.stableIndex) } }
  | takeResult (n : Node ι) (r : ApplyResult ι) (rest : List (ApplyResult ι))
      (hres : n.apply.results = r :: rest) (hinp : inp = .applied r) :
      Move inp n { n with
        apply := { n.apply with results := rest }, lastApplied := max n.lastApplied r.index }
  | table (n : Node ι) (table : ClientLRU) (hinp : ¬ inp.Calm) : Move inp n { n with clientTable := table }
  | trigger (n : Node ι) (t : SnapshotTrigger ι) (hcfg : n.cfg.snapshotThreshold ≠ 0)
      (hinp : ¬ inp.Calm) :
      Move inp n { n with
        apply := { n.apply with snapshotTrigger := some t }
        snapshots := { n.snapshots with snapshotting := true } }
  | takeSnapshot (n : Node ι) (s : Snapshots ι) (hinp : inp = .snapshot) :
      Move inp n { n with snapshots := s }
  | compact (n : Node ι) (position : SnapshotMeta) (hinp : inp = .snapshot) :
      Move inp n { n with log := n.log.compact position n.trailingLogs }
  | install (n : Node ι) (snap : Snapshot ι) (log : RaftLog ι) (hinp : inp = .snapshot)
      (hlog : n.log.installSnapshot snap.position = some log) : Move inp n { n with log := log }
  | restore (n : Node ι) (snap : Snapshot ι) (hinp : inp = .snapshot) :
      Move inp n { n with
        apply := { n.apply with restore := some snap }
        lastApplied := max n.lastApplied snap.position.lastIncludedIndex }
  | snapshotCommit (n : Node ι) (idx : Nat) (hinp : inp = .snapshot) (hgt : n.commitIndex < idx) :
      Move inp n { n with commitIndex := idx }
  /- Completed writes. -/
  | written (n : Node ι) (d : WriteDone) (due kept : List (DeferredWrite ι))
      (hinp : inp = .written d due kept) (hok : d.err = false)
      (hdue : due = n.deferredWrites.filter (·.seq ≤ d.seq))
      (hkept : kept = n.deferredWrites.filter (d.seq < ·.seq)) :
      Move inp n { n with
        log := n.log.stabilize d
        completedWriteSeq := max n.completedWriteSeq d.seq
        unsafeTermSeq := if n.unsafeTermSeq ≠ 0 ∧ n.unsafeTermSeq ≤ d.seq then 0
          else n.unsafeTermSeq
        deferredWrites := [] }
  | resume (n : Node ι) (d : WriteDone) (due kept : List (DeferredWrite ι)) (w : DeferredWrite ι)
      (hinp : inp = .written d due kept) (hdue : w ∈ due) :
      Move inp n (n.sendAll (w.work.answer n.cfg.id))
  | keep (n : Node ι) (d : WriteDone) (due kept : List (DeferredWrite ι))
      (hinp : inp = .written d due kept) :
      Move inp n { n with deferredWrites := kept ++ n.deferredWrites }

def Moves (inp : Input ι) : Node ι → Node ι → Prop := Relation.ReflTransGen (Move inp)

namespace Moves

variable {inp : Input ι} {n m n' : Node ι}

theorem refl (n : Node ι) : Moves inp n n := Relation.ReflTransGen.refl

theorem trans (h : Moves inp n m) (h' : Moves inp m n') : Moves inp n n' :=
  Relation.ReflTransGen.trans h h'

theorem of_move (h : Move inp n m) : Moves inp n m := Relation.ReflTransGen.single h

theorem head (h : Move inp n m) (h' : Moves inp m n') : Moves inp n n' :=
  Relation.ReflTransGen.head h h'

theorem tail (h : Moves inp n m) (h' : Move inp m n') : Moves inp n n' :=
  Relation.ReflTransGen.tail h h'

theorem quiet (h : n'.toCore = n.toCore) (hs : n'.shell = n.shell) : Moves inp n n' :=
  of_move (.quiet h hs)

theorem invariant {P : Node ι → Prop} (hmove : ∀ n n', P n → Move inp n n' → P n')
    (h : Moves inp n n') (hn : P n) : P n' := by
  induction h with
  | refl => exact hn
  | tail _ hstep ih => exact hmove _ _ ih hstep

end Moves

end Node

end Raft
