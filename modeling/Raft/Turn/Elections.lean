import Raft.Turn.Leading

/-!
# The moves of an election

Stepping down, standing, counting votes and starting to lead, and the handling of
vote requests, taken apart into moves.

A node that stands holds the rest of its candidacy back until its own vote is on
disk.  This relies on no write being reported that was never queued:
`completedWriteSeq` does not exceed the last sequence number handed out.
-/

namespace Raft

variable {ι : Type} [DecidableEq ι] [Sized ι]

namespace Node

variable {inp : Input ι} {n : Node ι}

theorem becomeFollower_moves (n : Node ι) (term : Nat) (leaderID : Option ι) :
    Moves inp n (n.becomeFollower term leaderID) := by
  by_cases h : n.currentTerm < term
  · have heq : n.becomeFollower term leaderID =
        (n.applyFollowerTransition leaderID).saveTerm term none := by
      rw [becomeFollower, if_pos h]
      rfl
    rw [heq]
    exact .head (.demote n leaderID) (.of_move (.adoptTerm _ term h rfl))
  · have heq : n.becomeFollower term leaderID = n.applyFollowerTransition leaderID := by
      rw [becomeFollower, if_neg h]
    rw [heq]
    exact .of_move (.demote n leaderID)

theorem broadcastPreVote_moves (n : Node ι) : Moves inp n (n.broadcastRequestVote true) := by
  refine .of_move (.send n _ fun msg hmsg => ?_)
  obtain ⟨peer, -, rfl⟩ := List.mem_map.mp hmsg
  rfl

section

variable (hseq : n.completedWriteSeq ≤ n.log.nextSeq)

include hseq

section

variable (hstands : n.MayStand inp)

include hstands

theorem becomeCandidate_moves : Moves inp n n.becomeCandidate := by
  -- The write has just been queued, so it cannot have completed.
  have hwaits : ¬ (n.log.nextSeq + 1 = 0 ∨ n.log.nextSeq + 1 ≤ n.completedWriteSeq) := by omega
  simp only [becomeCandidate, afterWrite]
  split_ifs with hdone
  · exact absurd hdone hwaits
  · exact .head (.stand n hstands) (.quiet rfl rfl)

theorem becomePreCandidate_moves : Moves inp n n.becomePreCandidate := by
  simp only [becomePreCandidate]
  set m : Node ι := { n with
    state := .preCandidate, leaderID := none, nextIndex := fun _ => none
    matchIndex := fun _ => none, receivedVoteSet := [] }
  have hstand : Moves inp n m.resetElectionTimeout := .head (.prestand n hstands) (.quiet rfl rfl)
  split_ifs
  · exact hstand.trans (becomeCandidate_moves hseq ⟨.inr State.noConfusion, hstands.2⟩)
  · exact hstand.trans (broadcastPreVote_moves _)

theorem triggerElection_moves : Moves inp n n.triggerElection := by
  unfold triggerElection
  split_ifs
  · exact becomeCandidate_moves hseq hstands
  · exact becomePreCandidate_moves hseq hstands

end

end

theorem becomeLeader_moves (hstate : n.state = .candidate) (hwon : n.Wins inp) :
    Moves inp n n.becomeLeader := by
  simp only [becomeLeader]
  set m : Node ι := { n with
    state := .leader, leaderID := some n.cfg.id, heartbeatElapsed := 0
    leaderNopCommitted := false, quorumAcks := [], leaderQuorumElapsed := 0, departing := []
    nextIndex := fun p => if (n.membership.peers.map (·.id)).contains p then
      some (n.log.lastLogIndex + 1) else none
    matchIndex := fun p => if (n.membership.peers.map (·.id)).contains p then some 0 else none
    inflight := fun _ => 0, snapshotInflight := some [], peerFailures := fun _ => 0, peerDown := []
    log := (n.log.append [⟨n.log.lastLogIndex + 1, n.currentTerm, .noop⟩]).2
    termStartIndex := n.log.lastLogIndex + 1 }
  have hlead : Moves inp n m := .head (.lead n hstate hwon) (.quiet rfl rfl)
  have hopen : Stays inp m m.broadcastHeartbeat.maybeAdvanceCommit :=
    (broadcastHeartbeat_stays rfl).trans (maybeAdvanceCommit_stays _)
  split_ifs with hjoint
  · exact hlead.trans (hopen.moves.trans
      (appendFinaliseEntry_moves hwon.appends (hopen.leader rfl) hjoint.1 _ _ _))
  · exact hlead.trans hopen.moves

theorem campaign_moves {d : WriteDone} {due kept : List (DeferredWrite ι)} {seq term : Nat}
    (hinp : inp = .written d due kept) (hdue : ⟨seq, .campaign term⟩ ∈ due) :
    Moves inp n (n.campaign term) := by
  unfold campaign
  split_ifs with hno hsingle
  · exact .refl n
  · push Not at hno
    obtain ⟨hstate, rfl⟩ := hno
    exact becomeLeader_moves hstate (.inr ⟨hsingle, d, due, kept, seq, hinp, hdue⟩)
  · push Not at hno
    obtain ⟨hstate, rfl⟩ := hno
    exact .of_move (.askVotes n d due kept seq hinp hdue hstate)

theorem refuseVote_moves (n : Node ι) (src : Asker ι) (req : RequestVoteRequest ι) :
    Moves inp n (n.replyVoteWhenDurable src req false) := by
  unfold replyVoteWhenDurable
  rcases afterWrite_cases n _ _ _ with ⟨-, heq⟩ | ⟨-, heq⟩ <;> rw [heq]
  · exact .of_move (.send n _ (List.forall_mem_singleton.mpr (.inr rfl)))
  · exact .of_move (.hold n _ (.inr rfl))

theorem handleRequestVote_moves (n : Node ι) (src : Asker ι) (dst : ι)
    (req : RequestVoteRequest ι) (hinp : inp = .msg (.requestVote src dst req)) :
    Moves inp n (n.handleRequestVote src req) := by
  simp only [handleRequestVote]
  split_ifs with hpre hnewer hvoter hlog hstale hvoter' hfree
  · exact .of_move (.send n _ (List.forall_mem_singleton.mpr (.inl hpre)))
  · exact .head (.demote n none)
      (.head (.adoptTerm _ req.term hnewer rfl) (refuseVote_moves _ src req))
  · -- A newer term, and a voter: the log decides.
    rw [hlog]
    have hvoter : n.membership.voter = true := by simpa using hvoter
    exact .head (.demote n none) (.of_move (.grant src dst req hinp (by simpa using hpre)
      hvoter hlog (.inl ⟨hnewer, rfl⟩) (replyVoteWhenDurable_answers _ src req true)))
  · rw [Bool.eq_false_of_not_eq_true hlog]
    exact .head (.demote n none)
      (.head (.adoptTerm _ req.term hnewer rfl) (refuseVote_moves _ src req))
  · exact refuseVote_moves n src req
  · exact refuseVote_moves n src req
  · -- The node's own term, and its vote is free or has gone to this candidate.
    have hterm : n.currentTerm = req.term := by omega
    have hvoter : n.membership.voter = true := by simpa using hvoter'
    have hvote : n.votedFor = none ∨ n.votedFor = some req.candidateID := by
      by_contra hno
      push Not at hno
      exact hfree.1 hno
    have hreset : Moves inp n n.resetElectionTimeout := .quiet rfl rfl
    exact hreset.tail (.grant src dst req hinp (by simpa using hpre) hvoter hfree.2
      (.inr ⟨hterm, hvote⟩) (replyVoteWhenDurable_answers _ src req true))
  · exact refuseVote_moves n src req

theorem handleVoteResult_moves (peer : ι) (dst : Asker ι) (req : RequestVoteRequest ι)
    (resp : RequestVoteResponse) (hinp : inp = .msg (.requestVoteReply peer dst req resp))
    (hboot : n.boot = dst.boot) (hseq : req.preVote = true → n.completedWriteSeq ≤ n.log.nextSeq) :
    Moves inp n (n.handleVoteResult peer req resp) := by
  simp only [handleVoteResult]
  split_ifs with hpre hno hnewer hgranted hwon hnewer' hno' hgranted' hwon'
  · exact .refl n
  · exact becomeFollower_moves n _ _
  · push Not at hno
    exact .head (.tally n peer dst req resp hinp hboot hgranted (.inl ⟨hno.1, hpre⟩))
      (becomeCandidate_moves (hseq hpre)
        ⟨.inr fun h => State.noConfusion (hno.1.symm.trans h), hinp ▸ trivial⟩)
  · push Not at hno
    exact .of_move (.tally n peer dst req resp hinp hboot hgranted (.inl ⟨hno.1, hpre⟩))
  · exact .refl n
  · exact becomeFollower_moves n _ _
  · exact .refl n
  · push Not at hno'
    refine .head (.tally n peer dst req resp hinp hboot hgranted' (.inr ⟨hno'.1, by simpa using hpre,
      by omega⟩)) (becomeLeader_moves hno'.1 (.inl ⟨by simp [recordVote], hwon', ?_⟩))
    exact ⟨peer, dst, req, resp, hinp⟩
  · push Not at hno'
    exact .of_move (.tally n peer dst req resp hinp hboot hgranted' (.inr ⟨hno'.1, by simpa using hpre,
      by omega⟩))
  · exact .refl n

theorem handleTimeoutNow_moves (dst : ι) (req : TimeoutNowRequest ι)
    (hinp : inp = .msg (.timeoutNow dst req)) (hseq : n.completedWriteSeq ≤ n.log.nextSeq) : Moves inp n (n.handleTimeoutNow req) := by
  unfold handleTimeoutNow
  by_cases hstale : req.term < n.currentTerm
  · rw [if_pos hstale]
    exact .refl n
  · by_cases hnewer : n.currentTerm < req.term
    · simp only [if_pos hnewer]
      have hfollow : Moves inp n (n.becomeFollower req.term none) :=
        becomeFollower_moves n req.term none
      split_ifs with hwitness
      · exact hfollow
      · refine hfollow.trans (becomeCandidate_moves ?_ ⟨.inl (by simpa using hwitness), hinp ▸ trivial⟩)
        simp only [becomeFollower, if_pos hnewer]
        exact Nat.le_succ_of_le hseq
    · simp only [if_neg hnewer]
      split_ifs with hwitness
      · exact .refl n
      · exact becomeCandidate_moves hseq ⟨.inl (by simpa using hwitness), hinp ▸ trivial⟩

end Node

end Raft
