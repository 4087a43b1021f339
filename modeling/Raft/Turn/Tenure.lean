import Raft.Turn.Frames

/-!
# Who leads, and since when

A node that leads keeps its office through every turn in which it takes up no proposal and no
result of the apply loop, or it steps down.  A node that does not lead can start to: the
first entry of its term is appended then, and perhaps one that closes a joint stage.
-/

namespace Raft

variable {ι : Type}

namespace Node

variable [DecidableEq ι] [Sized ι] {inp : Input ι} {n n' : Node ι}

/-! ## What most turns leave alone -/

/-- **Moves that are not about what has been applied or captured** leave the side alone. -/
theorem Move.side (h : Move inp n n') (hcalm : inp.Calm) : n'.side = n.side := by
  cases h with
  | quiet _ hs => exact congrArg Shell.side hs
  | rounds h => exact (congrArg Shell.side h.shell :)
  | demote leaderID =>
    simp only [Node.side, applyFollowerTransition, drainPendingReads, resetElectionTimeout]
    split_ifs <;> rfl
  | grant _ _ _ _ _ _ _ _ h => exact (congrArg Shell.side h.shell :)
  | accept src dst req _ _ hstate _ heq =>
    exact congrArg Shell.side (acceptEntries_frame hstate heq).shell
  | answer h => exact congrArg Shell.side h.shell
  | takeResult r rest _ hinp => exact absurd hcalm (hinp ▸ not_false)
  | table table hinp | trigger t _ hinp => exact absurd hcalm hinp
  | takeSnapshot s hinp | restore snap hinp => exact absurd hcalm (hinp ▸ not_false)
  | _ => rfl

/-- **In turns without entries of its own** a node keeps its tenure, or does not lead. -/
theorem Move.keeps (h : Move inp n n') (hcalm : inp.Calm) (hno : ¬ inp.Appends) : n.Keeps n' := by
  have hside := h.side hcalm
  cases h with
  | quiet h hs => exact .of_tenure (tenure_of_core h hs rfl rfl rfl)
  | rounds h => exact .of_tenure h.tenure
  | demote leaderID => exact .of_not_leader hside fun h => nomatch h
  | grant _ _ _ _ _ _ _ _ h => exact .of_tenure (h.tenure.trans rfl)
  | prestand _ | stand _ => exact .of_not_leader hside fun h => nomatch h
  | lead _ hwon => exact absurd hwon.appends hno
  | append _ _ _ _ _ _ hinp | pend _ hinp => exact absurd hinp hno
  | accept src dst req _ _ hstate _ heq =>
    have hsame : n'.state = n.state := (congrArg Core.state (acceptEntries_frame hstate heq).core :)
    exact .of_not_leader hside (by rw [hsame, hstate]; decide)
  | answer h => exact .of_tenure h.tenure
  | takeResult r rest _ hinp => exact absurd hcalm (hinp ▸ not_false)
  | table table hinp | trigger t _ hinp => exact absurd hcalm hinp
  | takeSnapshot s hinp | compact position hinp | install snap log hinp _ | restore snap hinp =>
    exact absurd hcalm (hinp ▸ not_false)
  | written d due kept hinp => exact absurd (hinp ▸ trivial) hno
  | _ => exact .of_tenure rfl

theorem Moves.side (h : Moves inp n n') (hcalm : inp.Calm) : n'.side = n.side :=
  h.invariant (P := fun m => m.side = n.side) (fun _ _ hm hmove => (hmove.side hcalm).trans hm) rfl

theorem Moves.keeps (h : Moves inp n n') (hcalm : inp.Calm) (hno : ¬ inp.Appends) : n.Keeps n' :=
  h.invariant (P := n.Keeps) (fun _ _ hm hmove => hm.trans (hmove.keeps hcalm hno)) (.of_tenure rfl)

/-- The turn has left the side and the membership alone. -/
structure Rests (n n' : Node ι) : Prop where
  side : n'.side = n.side
  membership : n'.membership = n.membership

omit [DecidableEq ι] [Sized ι] in
theorem Rests.trans {m : Node ι} (h : n.Rests m) (h' : m.Rests n') : n.Rests n' :=
  ⟨h'.side.trans h.side, h'.membership.trans h.membership⟩

theorem Moves.rests (h : Moves inp n n') (hs : inp.Steady) : n.Rests n' :=
  ⟨h.side hs.calm, h.membership_of_steady hs⟩

section

variable (n : Node ι)

theorem becomeFollower_keeps (term : Nat) (leaderID : Option ι) :
    n.Keeps (n.becomeFollower term leaderID) := by
  have hmoves : Moves .timer n (n.becomeFollower term leaderID) := becomeFollower_moves n term leaderID
  exact hmoves.keeps trivial id

theorem applyConfigChange_side (op : ConfigOp ι) (index : Nat) :
    (n.applyConfigChange op index).side = { n.side with clientTable := (match op with
      | .clientTableCap capacity => n.clientTable.setCap capacity
      | _ => n.clientTable) } := by
  have hadopt : (n.adoptConfigEntry op index).checkWitness.side = n.side :=
    congrArg Tenure.side (adoptConfigEntry_tenure n op index)
  have htable : (n.adoptConfigEntry op index).checkWitness.clientTable = n.clientTable :=
    congrArg Side.clientTable hadopt
  unfold applyConfigChange
  generalize (n.adoptConfigEntry op index).checkWitness = m at hadopt htable
  have hfollow : (m.becomeFollower m.currentTerm none).side = n.side :=
    (becomeFollower_keeps m _ _).side.trans hadopt
  cases op with
  | clientTableCap capacity =>
    rw [← hadopt, ← htable]
    rfl
  | commitQuorum q =>
    have hrecount : Stays .timer _ _ := recount_stays { m with membership := m.membership.adoptCommitQuorum q }
    exact hrecount.side.trans hadopt
  | add peer => exact hadopt
  | remove id =>
    dsimp only
    split_ifs
    · exact hfollow
    · exact hadopt
  | joint old new =>
    dsimp only
    split_ifs with hlead
    · have hsent : Stays .timer _ _ := appendFinaliseEntry_stays hlead.1 m.membership.jointNew
        m.membership.jointIncludeSelf m.membership.jointSelfVoter
      exact hsent.side.trans hadopt
    · exact hadopt
  | finalise members =>
    dsimp only
    split_ifs
    · exact hadopt
    · exact hfollow

theorem becomeFollower_rests (term : Nat) (leaderID : Option ι) :
    n.Rests (n.becomeFollower term leaderID) := by
  have hmoves : Moves .timer n (n.becomeFollower term leaderID) := becomeFollower_moves n term leaderID
  exact hmoves.rests trivial

theorem handleWriteDone_rests (d : WriteDone) : n.Rests (n.handleWriteDone d) := by
  cases herr : d.err with
  | true =>
    obtain ⟨hcore, hside, -⟩ := handleWriteDone_of_err n d herr
    exact ⟨hside, (congrArg Core.membership hcore :)⟩
  | false => exact (handleWriteDone_moves n d herr rfl).rests trivial

theorem handleWriteCompletions_rests : n.Rests n.handleWriteCompletions := by
  have hdone : ∀ (ds : List WriteDone) (m : Node ι), m.Rests (ds.foldl handleWriteDone m) := by
    intro ds
    induction ds with
    | nil => exact fun m => ⟨rfl, rfl⟩
    | cons d ds ih => exact fun m => (handleWriteDone_rests m d).trans (ih _)
  unfold handleWriteCompletions
  dsimp only
  split_ifs
  · exact ⟨rfl, rfl⟩
  · have hadvance : Stays .timer _ _ := onDurableAdvanced_stays (n.log.w.takeDone.1.foldl
      handleWriteDone { n with log := { n.log with w := n.log.w.takeDone.2 } })
    exact ⟨hadvance.side.trans (hdone _ _).side, hadvance.membership.trans (hdone _ _).membership⟩

/-! ### Elections

The two are kept whether or not a candidacy has to wait for its own vote to be written. -/

theorem becomeCandidate_rests : n.Rests n.becomeCandidate := by
  have hcampaign : ∀ (m : Node ι) (term : Nat), m.Rests (m.campaign term) := fun m term => by
    have hmoves : Moves (.written ⟨0, 0, false⟩ [⟨0, .campaign term⟩] []) m (m.campaign term) :=
      campaign_moves rfl List.mem_cons_self
    exact hmoves.rests trivial
  unfold becomeCandidate afterWrite
  dsimp only
  split_ifs
  · exact ⟨(hcampaign _ _).side, (hcampaign _ _).membership⟩
  · exact ⟨rfl, rfl⟩

theorem triggerElection_rests : n.Rests n.triggerElection := by
  unfold triggerElection becomePreCandidate
  dsimp only
  split_ifs
  · exact becomeCandidate_rests n
  · exact ⟨(becomeCandidate_rests _).side, (becomeCandidate_rests _).membership⟩
  · exact ⟨rfl, rfl⟩

theorem tick_rests : n.Rests n.tick := by
  by_cases hlead : n.state = .leader
  · have hmoves : Moves .timer n n.tick := tick_moves_of_leader hlead
    exact hmoves.rests trivial
  · rw [tick, if_neg hlead]
    unfold tickElection
    split_ifs
    · exact ⟨rfl, rfl⟩
    · exact ⟨rfl, rfl⟩
    · exact ⟨rfl, rfl⟩
    · exact ⟨(triggerElection_rests _).side, (triggerElection_rests _).membership⟩

theorem handleVoteResult_rests (src : ι) (dst : Asker ι) (req : RequestVoteRequest ι)
    (resp : RequestVoteResponse) (hboot : n.boot = dst.boot) :
    n.Rests (n.handleVoteResult src req resp) := by
  by_cases hpre : req.preVote = true
  · unfold handleVoteResult
    dsimp only
    split_ifs
    · exact ⟨rfl, rfl⟩
    · exact becomeFollower_rests n _ _
    · exact ⟨(becomeCandidate_rests (n.recordVote src)).side, (becomeCandidate_rests _).membership⟩
    · exact ⟨rfl, rfl⟩
    · exact ⟨rfl, rfl⟩
  · exact (handleVoteResult_moves src dst req resp rfl hboot fun h => absurd h hpre).rests trivial

theorem handleTimeoutNow_rests (req : TimeoutNowRequest ι) : n.Rests (n.handleTimeoutNow req) := by
  have hfollow : n.Rests (if n.currentTerm < req.term then n.becomeFollower req.term none else n) := by
    split_ifs
    · exact becomeFollower_rests n _ _
    · exact ⟨rfl, rfl⟩
  unfold handleTimeoutNow
  generalize (if n.currentTerm < req.term then n.becomeFollower req.term none else n) = m at hfollow ⊢
  dsimp only
  split_ifs
  · exact ⟨rfl, rfl⟩
  · exact hfollow
  · exact hfollow.trans (becomeCandidate_rests m)

theorem receive_rests (msg : Msg ι) (hmsg : ∀ src dst req, msg ≠ .appendEntries src dst req) :
    n.Rests (n.receive msg) := by
  cases msg with
  | requestVote src dst req => exact (handleRequestVote_moves n src dst req rfl).rests trivial
  | requestVoteReply src dst req resp =>
    simp only [receive]
    split_ifs with hboot
    · exact handleVoteResult_rests n src dst req resp hboot
    · exact ⟨rfl, rfl⟩
  | appendEntries src dst req => exact absurd rfl (hmsg src dst req)
  | appendEntriesReply src dst req resp =>
    simp only [receive]
    split_ifs with hboot
    · exact (handleAppendResult_moves rfl hboot).rests trivial
    · exact ⟨rfl, rfl⟩
  | installSnapshot src dst req => exact (handleInstallSnapshot_moves n src dst req rfl).rests trivial
  | installSnapshotReply src dst req resp =>
    simp only [receive]
    split_ifs with hboot
    · exact (handleInstallSnapshotResult_moves rfl hboot.1).rests trivial
    · exact ⟨rfl, rfl⟩
  | timeoutNow dst req => exact handleTimeoutNow_rests n req
  | readIndex dst req read => exact (handleReadIndexRPC_moves n req read : Moves .timer _ _).rests trivial

end

end Node

/-! ## Offices -/

/-- What a leader goes by when it takes up a configuration change. -/
structure Office where
  state : State
  termStartIndex : Nat
  pendingConfigIndex : Nat
  lastLogIndex : Nat
  lastApplied : Nat

namespace Node

def office (n : Node ι) : Office :=
  { state := n.state
    termStartIndex := n.termStartIndex
    pendingConfigIndex := n.pendingConfigIndex
    lastLogIndex := n.log.lastLogIndex
    lastApplied := n.lastApplied }

variable {n m n' : Node ι}

theorem office_of_tenure (h : n'.tenure = n.tenure) : n'.office = n.office :=
  congrArg (fun t : Tenure ι => (⟨t.state, t.termStartIndex, t.pendingConfigIndex, t.lastLogIndex,
    t.side.lastApplied⟩ : Office)) h

/-- The node starts to lead: it appends the entry that opens its term, and perhaps one that
closes a joint stage. -/
structure Begins (n n' : Node ι) : Prop where
  idle : n.state ≠ .leader
  leads : n'.state = .leader
  lastApplied : n'.lastApplied = n.lastApplied
  termStart : n'.termStartIndex = n.log.lastLogIndex + 1
  ends : n'.log.lastLogIndex = n.log.lastLogIndex + 1 ∨
    n.membership.jointOld.isSome = true ∧ n'.log.lastLogIndex = n.log.lastLogIndex + 2 ∧
      n'.pendingConfigIndex = n.log.lastLogIndex + 2

/-- The node has kept its office, or starts to lead, if it leads afterwards. -/
def LeadsOn (n n' : Node ι) : Prop := n'.state = .leader → n'.office = n.office ∨ n.Begins n'

theorem Keeps.leadsOn (h : n.Keeps n') : n.LeadsOn n' :=
  fun hlead => .inl (office_of_tenure (h.tenure hlead))

theorem LeadsOn.of_office (h : n'.office = n.office) : n.LeadsOn n' := fun _ => .inl h

theorem LeadsOn.of_not_leader (h : n'.state ≠ .leader) : n.LeadsOn n' := fun hlead => absurd hlead h

theorem Begins.congr (h : m.Begins n') (hoffice : m.office = n.office)
    (hmem : m.membership = n.membership) : n.Begins n' := by
  have hstate : m.state = n.state := congrArg Office.state hoffice
  have hlast : m.log.lastLogIndex = n.log.lastLogIndex := congrArg Office.lastLogIndex hoffice
  have happlied : m.lastApplied = n.lastApplied := congrArg Office.lastApplied hoffice
  exact ⟨hstate ▸ h.idle, h.leads, h.lastApplied.trans happlied, hlast ▸ h.termStart, hlast ▸ hmem ▸ h.ends⟩

theorem Begins.go_on (h : n.Begins m) (hoffice : n'.office = m.office) : n.Begins n' := by
  have hlast : n'.log.lastLogIndex = m.log.lastLogIndex := congrArg Office.lastLogIndex hoffice
  have hpending : n'.pendingConfigIndex = m.pendingConfigIndex :=
    congrArg Office.pendingConfigIndex hoffice
  refine ⟨h.idle, (congrArg Office.state hoffice).trans h.leads,
    (congrArg Office.lastApplied hoffice).trans h.lastApplied,
    (congrArg Office.termStartIndex hoffice).trans h.termStart, ?_⟩
  rw [hlast, hpending]
  exact h.ends

/-! ## Starting to lead -/

variable [DecidableEq ι] [Sized ι]

theorem appendFinaliseEntry_office (hlead : n.state = .leader) (newPeers : List (PeerConfig ι))
    (includeSelf selfVoter : Bool) :
    (n.appendFinaliseEntry newPeers includeSelf selfVoter).office =
      { n.office with
        pendingConfigIndex := n.log.lastLogIndex + 1, lastLogIndex := n.log.lastLogIndex + 1 } := by
  have happend : (n.log.append [⟨n.log.lastLogIndex + 1, n.currentTerm, .config (.finalise
      (withSelf newPeers n.cfg.id includeSelf selfVoter n.cfg.witness))⟩]).2.lastLogIndex =
      n.log.lastLogIndex + 1 :=
    RaftLog.append_lastLogIndex n.log (by simp) (Contiguous.singleton _)
  have hsent : Stays .timer _ _ := appendFinaliseEntry_stays hlead newPeers includeSelf selfVoter
  rw [office_of_tenure hsent.tenure, ← happend]
  rfl

theorem becomeLeader_begins (hidle : n.state ≠ .leader) : n.Begins n.becomeLeader := by
  have happend : (n.log.append [⟨n.log.lastLogIndex + 1, n.currentTerm, .noop⟩]).2.lastLogIndex =
      n.log.lastLogIndex + 1 :=
    RaftLog.append_lastLogIndex n.log (by simp) (Contiguous.singleton _)
  unfold becomeLeader
  dsimp only
  -- the node once its first heartbeat has been sent
  generalize hm : broadcastHeartbeat { n with
    state := .leader
    leaderID := some n.cfg.id
    heartbeatElapsed := 0
    leaderNopCommitted := false
    quorumAcks := []
    leaderQuorumElapsed := 0
    departing := []
    nextIndex := fun p => if (n.membership.peers.map (·.id)).contains p then
      some (n.log.lastLogIndex + 1) else none
    matchIndex := fun p => if (n.membership.peers.map (·.id)).contains p then some 0 else none
    inflight := fun _ => 0
    snapshotInflight := some []
    peerFailures := fun _ => 0
    peerDown := []
    log := (n.log.append [⟨n.log.lastLogIndex + 1, n.currentTerm, .noop⟩]).2
    termStartIndex := n.log.lastLogIndex + 1 } = m
  have hstays : Stays .snapshot m m.maybeAdvanceCommit := maybeAdvanceCommit_stays m
  rw [broadcastHeartbeat_eq] at hm
  have hoffice : m.maybeAdvanceCommit.office =
      ⟨.leader, n.log.lastLogIndex + 1, n.pendingConfigIndex, n.log.lastLogIndex + 1, n.lastApplied⟩ := by
    rw [office_of_tenure hstays.tenure, ← happend, ← hm]
    rfl
  have hmem : m.maybeAdvanceCommit.membership = n.membership := by
    rw [hstays.membership, ← hm]
    rfl
  generalize m.maybeAdvanceCommit = m' at hoffice hmem ⊢
  have hlast : m'.log.lastLogIndex = n.log.lastLogIndex + 1 := congrArg Office.lastLogIndex hoffice
  -- the entry that closes a joint stage comes right behind the one that opens the term
  split_ifs with hjoint
  · have hfinal := appendFinaliseEntry_office (congrArg Office.state hoffice) m'.membership.jointNew
      m'.membership.jointIncludeSelf m'.membership.jointSelfVoter
    rw [hlast, hoffice] at hfinal
    generalize m'.appendFinaliseEntry m'.membership.jointNew m'.membership.jointIncludeSelf
      m'.membership.jointSelfVoter = m'' at hfinal ⊢
    exact ⟨hidle, (congrArg Office.state hfinal :), (congrArg Office.lastApplied hfinal :),
      (congrArg Office.termStartIndex hfinal :),
      .inr ⟨hmem ▸ hjoint.1, (congrArg Office.lastLogIndex hfinal :),
        (congrArg Office.pendingConfigIndex hfinal :)⟩⟩
  · exact ⟨hidle, (congrArg Office.state hoffice :), (congrArg Office.lastApplied hoffice :),
      (congrArg Office.termStartIndex hoffice :), .inl hlast⟩

section

variable (hseq : n.completedWriteSeq ≤ n.log.nextSeq)

include hseq

theorem becomeCandidate_idle : n.becomeCandidate.state ≠ .leader := by
  have hwaits : ¬ (n.log.nextSeq + 1 = 0 ∨ n.log.nextSeq + 1 ≤ n.completedWriteSeq) := by omega
  simp only [becomeCandidate, afterWrite]
  split_ifs with hdone
  · exact absurd hdone hwaits
  · exact State.noConfusion

theorem handleVoteResult_leadsOn (peer : ι) (req : RequestVoteRequest ι)
    (resp : RequestVoteResponse) : n.LeadsOn (n.handleVoteResult peer req resp) := by
  have hfollow : n.LeadsOn (n.becomeFollower resp.term none) :=
    (becomeFollower_keeps n _ _).leadsOn
  unfold handleVoteResult
  dsimp only
  split_ifs with hpre hstate hterm hgrant hwon hterm' hcand hgrant' hwon'
  · exact .of_office rfl
  · exact hfollow
  · exact .of_not_leader (becomeCandidate_idle (n := n.recordVote peer) hseq)
  · exact .of_office rfl
  · exact .of_office rfl
  · exact hfollow
  · exact .of_office rfl
  · -- the only way into office
    intro _
    push Not at hcand
    exact .inr ((becomeLeader_begins (n := n.recordVote peer) (by
      change n.state ≠ .leader
      rw [hcand.1]
      decide)).congr rfl rfl)
  · exact .of_office rfl
  · exact .of_office rfl

theorem receive_leadsOn (msg : Msg ι) : n.LeadsOn (n.receive msg) := by
  have hmoves : Moves (.msg msg) n (n.receive msg) := receive_moves msg rfl hseq
  cases msg with
  | requestVoteReply src dst req resp =>
    dsimp only [receive]
    split_ifs
    · exact handleVoteResult_leadsOn hseq src req resp
    · exact .of_office rfl
  | _ => exact (hmoves.keeps trivial id).leadsOn

end

/-! ## Storage completions -/

/-- The node has kept its office and its membership, or starts to lead. -/
def Persists (n n' : Node ι) : Prop :=
  n'.office = n.office ∧ n'.membership = n.membership ∨ n.Begins n'

omit [DecidableEq ι] [Sized ι] in
theorem Persists.trans (h : n.Persists m) (h' : m.Persists n') : n.Persists n' := by
  rcases h with ⟨hoffice, hmem⟩ | hbegins
  · rcases h' with ⟨hoffice', hmem'⟩ | hbegins'
    · exact .inl ⟨hoffice'.trans hoffice, hmem'.trans hmem⟩
    · exact .inr (hbegins'.congr hoffice hmem)
  · rcases h' with ⟨hoffice', -⟩ | hbegins'
    · exact .inr (hbegins.go_on hoffice')
    · exact absurd hbegins.leads hbegins'.idle

omit [DecidableEq ι] [Sized ι] in
theorem Persists.leadsOn (h : n.Persists n') : n.LeadsOn n' := fun _ => h.imp_left And.left

theorem runDeferred_persists (n : Node ι) (work : Deferred ι) : n.Persists (n.runDeferred work) := by
  cases work with
  | campaign term =>
    dsimp only [runDeferred]
    unfold campaign
    split_ifs with hno
    · exact .inl ⟨rfl, rfl⟩
    · push Not at hno
      exact .inr (becomeLeader_begins (by rw [hno.1]; decide))
    · exact .inl ⟨rfl, rfl⟩
  | _ => exact .inl ⟨rfl, rfl⟩

omit [DecidableEq ι] [Sized ι] in
theorem foldl_persists {α : Type} {f : Node ι → α → Node ι} {l : List α}
    (h : ∀ n : Node ι, ∀ a ∈ l, n.Persists (f n a)) (n : Node ι) : n.Persists (l.foldl f n) := by
  induction l generalizing n with
  | nil => exact .inl ⟨rfl, rfl⟩
  | cons a l ih =>
    exact (h n a List.mem_cons_self).trans (ih (fun n b hb => h n b (List.mem_cons_of_mem a hb)) _)

theorem runDeferredWrites_persists (n : Node ι) (seq : Nat) : n.Persists (n.runDeferredWrites seq) := by
  have hruns := foldl_persists (l := n.deferredWrites.filter (·.seq ≤ seq))
    (fun n (d : DeferredWrite ι) _ => runDeferred_persists n d.work) { n with deferredWrites := [] }
  have hcleared : n.Persists { n with deferredWrites := [] } := .inl ⟨rfl, rfl⟩
  unfold runDeferredWrites
  dsimp only
  generalize (n.deferredWrites.filter (·.seq ≤ seq)).foldl (fun n d => n.runDeferred d.work)
    { n with deferredWrites := [] } = m at hruns ⊢
  exact hcleared.trans (hruns.trans (.inl ⟨rfl, rfl⟩))

theorem handleWriteDone_persists (n : Node ι) {d : WriteDone} (hok : d.err = false) :
    n.Persists (n.handleWriteDone d) := by
  unfold handleWriteDone
  rw [if_neg (by simp [hok])]
  have hnoted : n.Persists { n with
      log := n.log.stabilize d
      completedWriteSeq := max n.completedWriteSeq d.seq
      unsafeTermSeq := if n.unsafeTermSeq ≠ 0 ∧ n.unsafeTermSeq ≤ d.seq then 0
        else n.unsafeTermSeq
      durableTerm := if n.unsafeTermSeq ≠ 0 ∧ n.unsafeTermSeq ≤ d.seq then n.currentTerm
        else n.durableTerm } := by
    refine .inl ⟨?_, rfl⟩
    simp only [office, RaftLog.stabilize, hok, Bool.false_eq_true, if_false]
    rfl
  exact hnoted.trans (runDeferredWrites_persists _ d.seq)

theorem handleWriteCompletions_leadsOn (hok : ∀ d ∈ n.log.w.done, d.err = false) :
    n.LeadsOn n.handleWriteCompletions := by
  unfold handleWriteCompletions
  dsimp only
  split_ifs
  · exact .of_office rfl
  have htaken : n.Persists { n with log := { n.log with w := n.log.w.takeDone.2 } } :=
    .inl ⟨rfl, rfl⟩
  have hdone := foldl_persists (l := n.log.w.takeDone.1)
    (fun (m : Node ι) d hd => handleWriteDone_persists m (hok d hd))
    { n with log := { n.log with w := n.log.w.takeDone.2 } }
  generalize n.log.w.takeDone.1.foldl handleWriteDone
    { n with log := { n.log with w := n.log.w.takeDone.2 } } = m at hdone ⊢
  refine (htaken.trans (hdone.trans ?_)).leadsOn
  have hstays : Stays .snapshot m m.onDurableAdvanced := onDurableAdvanced_stays m
  exact .inl ⟨office_of_tenure hstays.tenure, hstays.membership⟩

end Node

end Raft
