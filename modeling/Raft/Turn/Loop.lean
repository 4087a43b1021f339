import Raft.System.Basic
import Raft.Turn.Proposals
import Raft.Turn.Snapshots

/-!
# The moves of the event loop

Ticks, transfers, reads, completed writes and the results of the apply loop and of the
snapshot goroutines, taken apart into moves.
-/

namespace Raft

variable {ι : Type} [DecidableEq ι] [Sized ι]

namespace Node

variable {inp : Input ι} {n : Node ι}

theorem handleLeadershipTransfer_stays (n : Node ι) (target : ι) :
    Stays inp n (n.handleLeadershipTransfer target) := by
  unfold handleLeadershipTransfer
  by_cases hno : n.state ≠ .leader ∨ n.transferTarget.isSome
  · rw [if_pos hno]
    exact .refl n
  · rw [if_neg hno]
    push Not at hno
    cases n.membership.peers.find? (·.id = target) with
    | none => exact .refl n
    | some peer =>
      dsimp only
      split_ifs
      · exact .refl n
      · exact finishTransfer_stays n target
      · have hset : Stays inp n { n with transferTarget := some target, transferElapsed := 0 } :=
          .quiet rfl rfl
        exact hset.trans (replicateToPeer_stays (.inl (hset.leader hno.1)) target)

theorem handleReadIndex_stays (n : Node ι) (read : Nat) : Stays inp n (n.handleReadIndex read) := by
  unfold handleReadIndex
  split_ifs with hstate hopen hsingle hflight
  · exact .quiet rfl rfl
  · -- the read is held back until the first commit of the term
    have hheld : n.leaderNopCommitted = false := by simpa using hopen
    exact .rounds ⟨rfl, rfl⟩ fun _ => ⟨fun _ => by simp [reads], fun _ => by simp [reads],
      fun ho => by simp [reads, hheld] at ho⟩
  · exact .quiet rfl rfl
  · exact .rounds ⟨rfl, rfl⟩ fun h => .asking hflight (h.round hflight)
  · exact startReadBatch_stays ⟨rfl, rfl⟩ (by simpa using hstate) (by simp)

theorem handleReadIndexRPC_moves (n : Node ι) (req : ReadIndexRequest) (read : Nat) :
    Moves inp n (n.handleReadIndexRPC req read) := by
  unfold handleReadIndexRPC
  split_ifs
  · exact (becomeFollower_moves n req.term none).trans (.quiet rfl rfl)
  · exact (handleReadIndex_stays n read).moves

theorem forwardRead_moves (n : Node ι) (read : Nat) : Moves inp n (n.forwardRead read) := by
  unfold forwardRead
  cases n.leaderID with
  | none => exact .refl n
  | some leader =>
    split_ifs
    · exact .refl n
    · exact .of_move (.send n _ (List.forall_mem_singleton.mpr trivial))

theorem tickElection_moves (hseq : n.completedWriteSeq ≤ n.log.nextSeq) :
    Moves .timer n n.tickElection := by
  unfold tickElection
  split_ifs with hvoter _ hwitness
  · exact .refl n
  · exact .quiet rfl rfl
  · exact .quiet rfl rfl
  · have hreset : Moves .timer n n.resetElectionTimeout := .quiet rfl rfl
    have hvoter : n.membership.voter = true := by simpa using hvoter
    exact hreset.trans (triggerElection_moves hseq
      ⟨.inl (Bool.eq_false_of_not_eq_true hwitness), hvoter⟩)

theorem tickHeartbeat_stays (h : n.state = .leader) : Stays inp n n.tickHeartbeat := by
  unfold tickHeartbeat
  split_ifs with hearly
  · exact .quiet rfl rfl
  · have hreset : Stays inp n { n with heartbeatElapsed := 0 } := .quiet rfl rfl
    have hbeat := hreset.trans (broadcastHeartbeat_stays (hreset.leader h))
    dsimp only
    split_ifs
    · exact hbeat.trans (broadcastReadBarrier_stays (hbeat.leader h))
    · exact hbeat

theorem tickTransfer_stays (n : Node ι) : Stays inp n n.tickTransfer := by
  unfold tickTransfer
  split_ifs
  · exact .refl n
  · exact .quiet rfl rfl
  · exact .quiet rfl rfl

theorem tickPreferred_stays (n : Node ι) : Stays inp n n.tickPreferred := by
  unfold tickPreferred
  cases n.cfg.preferredLeader with
  | none => exact .refl n
  | some preferred =>
    dsimp only
    split_ifs
    · exact handleLeadershipTransfer_stays n preferred
    · exact .refl n

theorem tickQuorum_moves (n : Node ι) : Moves inp n n.tickQuorum := by
  unfold tickQuorum
  split_ifs
  · exact .refl n
  · exact .quiet rfl rfl
  · exact .quiet rfl rfl
  · have hcount : Moves inp n { n with leaderQuorumElapsed := n.leaderQuorumElapsed + 1 } :=
      .quiet rfl rfl
    exact hcount.trans (becomeFollower_moves _ _ _)

theorem tick_moves_of_leader (hlead : n.state = .leader) : Moves inp n n.tick := by
  unfold tick
  rw [if_pos hlead]
  have hbeat : Stays inp n n.tickHeartbeat := tickHeartbeat_stays hlead
  generalize n.tickHeartbeat = m at hbeat ⊢
  have hdep : Stays inp m (if m.departing.isEmpty then m else m.tickDepartures) := by
    split_ifs with hnil
    · exact .refl m
    · exact tickDepartures_stays (by simpa using hnil)
  exact ((hbeat.trans hdep).trans ((tickTransfer_stays _).trans (tickPreferred_stays _))).moves.trans
    (tickQuorum_moves _)

theorem tick_moves (hseq : n.completedWriteSeq ≤ n.log.nextSeq) : Moves .timer n n.tick := by
  by_cases hlead : n.state = .leader
  · exact tick_moves_of_leader hlead
  · rw [tick, if_neg hlead]
    exact tickElection_moves hseq

section

variable (n : Node ι)

omit [DecidableEq ι] [Sized ι] in
theorem foldl_failDeferred_frame (ds : List (DeferredWrite ι)) :
    (ds.foldl (fun n d => n.failDeferred d.work) n).toCore = n.toCore ∧
      (ds.foldl (fun n d => n.failDeferred d.work) n).side = n.side ∧
      (ds.foldl (fun n d => n.failDeferred d.work) n).reads = n.reads := by
  induction ds generalizing n with
  | nil => exact ⟨rfl, rfl, rfl⟩
  | cons d ds ih =>
    obtain ⟨hcore, hside, hreads⟩ := ih (n.failDeferred d.work)
    have hone : (n.failDeferred d.work).toCore = n.toCore ∧ (n.failDeferred d.work).side = n.side ∧
        (n.failDeferred d.work).reads = n.reads := by
      cases d.work <;> exact ⟨rfl, rfl, rfl⟩
    exact ⟨hcore.trans hone.1, hside.trans hone.2.1, hreads.trans hone.2.2⟩

theorem runDeferred_moves {d : WriteDone} {due kept : List (DeferredWrite ι)} (w : DeferredWrite ι)
    (hinp : inp = .written d due kept) (hdue : w ∈ due) : Moves inp n (n.runDeferred w.work) := by
  obtain ⟨seq, work⟩ := w
  cases work with
  | campaign term => exact campaign_moves hinp hdue
  | requestVoteReply dst req resp | appendEntriesReply dst req resp
  | installSnapshotReply dst req resp => exact .of_move (.resume n d due kept _ hinp hdue)
  | proposals indices => exact .refl n

theorem foldl_runDeferred_moves {d : WriteDone} {due kept : List (DeferredWrite ι)}
    (hinp : inp = .written d due kept) (ws : List (DeferredWrite ι)) (h : ∀ w ∈ ws, w ∈ due) :
    Moves inp n (ws.foldl (fun n w => n.runDeferred w.work) n) := by
  induction ws generalizing n with
  | nil => exact .refl n
  | cons w ws ih =>
    exact (runDeferred_moves n w hinp (h w (List.mem_cons_self ..))).trans
      (ih _ fun w' hw' => h w' (List.mem_cons_of_mem _ hw'))

theorem handleWriteDone_moves (d : WriteDone) (hok : d.err = false)
    (hinp : inp = .written d (n.deferredWrites.filter (·.seq ≤ d.seq))
      (n.deferredWrites.filter (d.seq < ·.seq))) : Moves inp n (n.handleWriteDone d) := by
  unfold handleWriteDone
  rw [if_neg (by simp [hok])]
  have hnoted : Moves inp n { n with
      log := n.log.stabilize d
      completedWriteSeq := max n.completedWriteSeq d.seq
      unsafeTermSeq := if n.unsafeTermSeq ≠ 0 ∧ n.unsafeTermSeq ≤ d.seq then 0 else n.unsafeTermSeq
      durableTerm := if n.unsafeTermSeq ≠ 0 ∧ n.unsafeTermSeq ≤ d.seq then n.currentTerm
        else n.durableTerm
      deferredWrites := [] } :=
    .head (.written n d _ _ hinp hok rfl rfl) (.quiet rfl rfl)
  exact hnoted.trans (.tail (foldl_runDeferred_moves _ hinp _ fun w hw => hw) (.keep _ d _ _ hinp))

theorem handleWriteDone_of_err (d : WriteDone) (herr : d.err = true) :
    (n.handleWriteDone d).toCore = { n.toCore with
        completedWriteSeq := max n.completedWriteSeq d.seq, fatalErr := true, deferredWrites := [] } ∧
      (n.handleWriteDone d).side = n.side ∧ (n.handleWriteDone d).reads = n.reads := by
  unfold handleWriteDone
  rw [if_pos herr]
  exact foldl_failDeferred_frame _ _

theorem onDurableAdvanced_stays : Stays inp n n.onDurableAdvanced := by
  exact (notifyApply_stays n).trans ((recount_stays _).trans (maybeRecordCommit_stays _))

end

theorem receive_moves (msg : Msg ι) (hinp : inp = .msg msg)
    (hseq : n.completedWriteSeq ≤ n.log.nextSeq) : Moves inp n (n.receive msg) := by
  cases msg with
  | requestVote src dst req => exact handleRequestVote_moves n src dst req hinp
  | requestVoteReply src dst req resp =>
    simp only [receive]
    split_ifs with hboot
    · exact handleVoteResult_moves src dst req resp hinp hboot fun _ => hseq
    · exact .refl n
  | appendEntries src dst req => exact handleAppendEntries_moves n src dst req hinp
  | appendEntriesReply src dst req resp =>
    simp only [receive]
    split_ifs with hboot
    · exact handleAppendResult_moves hinp hboot
    · exact .refl n
  | installSnapshot src dst req => exact handleInstallSnapshot_moves n src dst req hinp
  | installSnapshotReply src dst req resp =>
    simp only [receive]
    split_ifs with hboot
    · exact handleInstallSnapshotResult_moves hinp hboot.1
    · exact .refl n
  | timeoutNow dst req => exact handleTimeoutNow_moves dst req hinp hseq
  | readIndex dst req read => exact handleReadIndexRPC_moves n req read

theorem lose_moves (n : Node ι) (msg : Msg ι) (hinp : inp = .lost msg) : Moves inp n (n.lose msg) := by
  cases msg with
  | appendEntries src dst req =>
    simp only [lose]
    split_ifs
    · exact handleAppendDropped_moves n dst
    · exact .refl n
  | installSnapshot src dst req =>
    simp only [lose]
    split_ifs
    · exact handleInstallSnapshotDropped_moves n src dst req hinp
    · exact .refl n
  | requestVote src dst req | requestVoteReply src dst req resp
  | appendEntriesReply src dst req resp | installSnapshotReply src dst req resp | timeoutNow dst req
  | readIndex dst req read => exact .refl n

section

variable (n : Node ι)

omit [DecidableEq ι] [Sized ι] in
theorem recordOutcome_frame (r : ApplyResult ι) :
    ∃ t, n.recordOutcome r = { n with clientTable := t } := by
  unfold recordOutcome
  split
  · exact ⟨_, rfl⟩
  · split_ifs <;> exact ⟨_, rfl⟩

theorem handleApplyResult_moves {r : ApplyResult ι} {rest : List (ApplyResult ι)}
    (hres : n.apply.results = r :: rest) (hinp : inp = .applied r) :
    Moves inp n n.handleApplyResult := by
  simp only [handleApplyResult, hres]
  have hcalm : ¬ inp.Calm := hinp ▸ not_false
  have htake : Moves inp n { n with
      apply := { n.apply with results := rest }, lastApplied := max n.lastApplied r.index } :=
    .of_move (.takeResult n r rest hres hinp)
  -- take the result, apply a change, clear it, record the outcome
  generalize ({ n with
    apply := { n.apply with results := rest }, lastApplied := max n.lastApplied r.index } :
      Node ι) = m at htake ⊢
  have hrecord : ∀ m : Node ι, Moves inp m (m.recordOutcome r).maybeSnapshot := fun m => by
    obtain ⟨t, heq⟩ := recordOutcome_frame m r
    rw [heq]
    exact .head (.table m t hcalm) (maybeSnapshot_moves _ hcalm)
  cases hop : r.configCmd with
  | none => exact htake.trans (hrecord m)
  | some op =>
    have happly := htake.trans (applyConfigChange_moves m hinp hop r.index)
    dsimp only
    generalize m.applyConfigChange op r.index = m' at happly ⊢
    have hclear : Moves inp m' { m' with
        pendingConfigIndex := if m'.pendingConfigIndex = r.index then 0 else m'.pendingConfigIndex } :=
      .of_move (.pend m' _ (hinp ▸ trivial))
    exact happly.trans (hclear.trans (hrecord _))

theorem takeSnapshotResult_moves (hinp : inp = .snapshot) : Moves inp n n.takeSnapshotResult := by
  unfold takeSnapshotResult
  cases n.snapshots.results with
  | nil => exact .refl n
  | cons r rest =>
    have htake : Moves inp n { n with snapshots := { n.snapshots with results := rest } } :=
      .of_move (.takeSnapshot n _ hinp)
    exact htake.trans (handleSnapshotResult_moves _ r hinp)

theorem takeInstallResult_moves (k : Nat) (hinp : inp = .snapshot) :
    Moves inp n (n.takeInstallResult k) := by
  unfold takeInstallResult
  cases n.snapshots.installed[k]? with
  | none => exact .refl n
  | some p =>
    have htake : Moves inp n { n with snapshots := { n.snapshots with
        installed := n.snapshots.installed.eraseIdx k } } := .of_move (.takeSnapshot n _ hinp)
    exact htake.trans (handleSnapInstallResult_moves _ p.1 p.2 hinp)

theorem reachable_moves (peer : ι) (up : Bool) :
    Moves inp n (if up then n.markPeerUp peer else n.markPeerDown peer) := by
  unfold markPeerDown
  split_ifs <;> exact .quiet rfl rfl

end

end Node

end Raft
