import Raft.Turn.Membership

/-!
# The moves of replication

Requests to append entries and to install a snapshot, and the answers to them, taken
apart into moves.
-/

namespace Raft

variable {ι : Type} [DecidableEq ι] [Sized ι]

namespace Node

variable {inp : Input ι} {dst : Asker ι} {n : Node ι} {peer : ι} {req : AppendEntriesRequest ι}
  {resp : AppendEntriesResponse}

theorem handleAppendEntries_moves (n : Node ι) (src : Asker ι) (dst : ι)
    (req : AppendEntriesRequest ι) (hinp : inp = .msg (.appendEntries src dst req)) :
    Moves inp n (n.handleAppendEntries src req) := by
  unfold handleAppendEntries
  split_ifs with hstale
  · exact .of_move (.answer (replyAppendWhenDurable_answers n src req _ 0) ⟨rfl, dst, hinp⟩)
  · have hfollow : Moves inp n (n.becomeFollower req.term (some req.leaderID)) :=
      becomeFollower_moves n _ _
    have hterm : (n.becomeFollower req.term (some req.leaderID)).currentTerm = req.term := by
      simp only [becomeFollower]
      split_ifs with hnewer
      · rfl
      · exact Nat.le_antisymm (Nat.le_of_not_lt hstale) (Nat.le_of_not_lt hnewer)
    have hstate : (n.becomeFollower req.term (some req.leaderID)).state = .follower :=
      (becomeFollower_frame n req.term (some req.leaderID)).2.2.2.1
    generalize n.becomeFollower req.term (some req.leaderID) = m at hfollow hterm hstate ⊢
    dsimp only
    cases hprev : m.prevConflict req with
    | some =>
      exact hfollow.tail (.answer (replyAppendWhenDurable_answers m src req _ 0) ⟨rfl, dst, hinp⟩)
    | none =>
      cases hfull : m.backlogFull req.entries with
      | true => exact hfollow
      | false => exact hfollow.tail (.accept src dst req hinp hterm hstate ⟨hprev, hfull⟩ rfl)

theorem recordProgress_stays (hinp : inp = .msg (.appendEntriesReply peer dst req resp))
    (hboot : n.boot = dst.boot) (hstate : n.state = .leader) (hok : resp.success = true) :
    Stays inp n (n.recordProgress peer req) := by
  unfold recordProgress
  cases hlast : req.entries.getLast? with
  | none => exact .refl n
  | some e =>
    -- The two tables are raised independently of each other.
    have hmatch : Stays inp n { n with matchIndex := assign n.matchIndex peer (some e.index) } :=
      .of_move (.raiseMatch n peer dst req resp e hinp hboot hstate hok hlast) rfl rfl rfl rfl
    have hnext : ∀ m : Node ι, m.boot = dst.boot → m.state = .leader →
        Stays inp m { m with nextIndex := assign m.nextIndex peer (some (e.index + 1)) } :=
      fun m hb hs => .of_move (.raiseNext m peer dst req resp e hinp hb hs hok hlast) rfl rfl rfl rfl
    dsimp only
    split_ifs
    · exact hmatch.trans (hnext _ hboot hstate)
    · exact hnext n hboot hstate
    · exact hmatch
    · exact .refl n

omit [DecidableEq ι] [Sized ι] in
theorem sendTimeoutNow_harmless (n : Node ι) (target : ι) :
    ∀ msg ∈ ([.timeoutNow target ⟨n.currentTerm, n.cfg.id⟩] : List (Msg ι)), msg.Harmless := by
  intro msg hmsg
  obtain rfl := List.mem_singleton.mp hmsg
  exact trivial

theorem finishTransfer_stays (n : Node ι) (target : ι) :
    Stays inp n { n.sendTimeoutNow target with transferTarget := none, transferElapsed := 0 } :=
  have hsend : Stays inp n (n.sendTimeoutNow target) :=
    .of_move (.send n _ (sendTimeoutNow_harmless n target)) rfl rfl rfl rfl
  hsend.trans (.quiet rfl rfl)

theorem maybeFinishTransfer_stays (n : Node ι) (peer : ι) :
    Stays inp n (n.maybeFinishTransfer peer) := by
  unfold maybeFinishTransfer
  split_ifs
  · exact finishTransfer_stays n peer
  · exact .refl n

theorem countReadAck_stays (h : n.state = .leader)
    (hinp : inp = .msg (.appendEntriesReply peer dst req resp)) :
    Stays inp n (n.countReadAck peer req resp) := by
  have hcount : Stays inp n { n with readBatchAcks := some (peer :: n.readBatchAcks.getD []) } :=
    .of_move (.countAck n _ peer dst req resp hinp) rfl rfl rfl rfl
  unfold countReadAck
  split_ifs with hopen
  · dsimp only
    split_ifs
    · exact hcount.trans (confirmReadBatch_stays h)
    · exact hcount
  · exact .refl n

theorem handleRejection_stays (hinp : inp = .msg (.appendEntriesReply peer dst req resp))
    (hboot : n.boot = dst.boot) (hstate : n.state = .leader) (hno : resp.success = false) :
    Stays inp n (n.handleRejection peer req resp) := by
  unfold handleRejection
  split_ifs with hhint hold
  · exact .refl n
  · exact .refl n
  · have hback : Stays inp n
        { n with nextIndex := assign n.nextIndex peer (some (n.backtrackTo peer resp)) } :=
      .of_move (.backtrack n peer dst req resp hinp hboot hstate hno hhint) rfl rfl rfl rfl
    exact hback.trans (replicateToPeer_stays (.inl (hback.leader hstate)) peer)

theorem continue_stays (h : n.MayReplicate inp) (peer : ι) (p : Prop) [Decidable p] :
    Stays inp n (if p then n.replicateToPeer peer else n) := by
  split_ifs
  · exact replicateToPeer_stays h peer
  · exact .refl n

section

variable (hinp : inp = .msg (.appendEntriesReply peer dst req resp))

include hinp

section

variable (hboot : n.boot = dst.boot)

include hboot

theorem departingPeer_stays {m : Node ι} (hstate : n.state = .leader) (hok : resp.success = true)
    (h : n.departingPeer peer req = some m) : Stays inp n m := by
  obtain ⟨d, hd, rfl⟩ := Option.map_eq_some_iff.mp h
  have hdep : n.departing ≠ [] := by
    rintro hnil
    simp [hnil] at hd
  split_ifs with hdone
  · exact foldl_endDeparture_stays hdep [peer]
  · -- What the peer has acknowledged is recorded as for any other.
    cases hlast : req.entries.getLast? with
    | none => exact continue_stays (.inl hstate) peer _
    | some e =>
      by_cases hgt : lookup n.matchIndex peer < e.index
      · simp only [if_pos hgt]
        have hmatch : Stays inp n { n with matchIndex := assign n.matchIndex peer (some e.index) } :=
          .of_move (.raiseMatch n peer dst req resp e hinp hboot hstate hok hlast) rfl rfl rfl rfl
        have hrecord : Stays inp n { n with
            matchIndex := assign n.matchIndex peer (some e.index)
            nextIndex := assign n.nextIndex peer (some (e.index + 1)) } := hmatch.trans
          (.of_move (.raiseNext _ peer dst req resp e hinp hboot hstate hok hlast) rfl rfl rfl rfl)
        exact hrecord.trans (continue_stays (.inl (hrecord.leader hstate)) peer _)
      · simp only [if_neg hgt]
        exact continue_stays (.inl hstate) peer _

theorem handleSuccess_stays (hstate : n.state = .leader) (hok : resp.success = true) :
    Stays inp n (n.handleSuccess peer req resp) := by
  have hack : Stays inp n { n with quorumAcks := peer :: n.quorumAcks } := .quiet rfl rfl
  have hprogress := (hack.trans (recordProgress_stays hinp hboot hstate hok)).trans
    ((maybeAdvanceCommit_stays _).trans (maybeFinishTransfer_stays _ peer))
  have hread := hprogress.trans (countReadAck_stays (hprogress.leader hstate) hinp)
  exact hread.trans (continue_stays (.inl (hread.leader hstate)) peer _)

theorem handleAppendResult_moves : Moves inp n (n.handleAppendResult peer req resp) := by
  unfold handleAppendResult
  have hquiet : Moves inp n ((n.releaseInflight peer).markPeerUp peer) := .quiet rfl rfl
  have hboot' : ((n.releaseInflight peer).markPeerUp peer).boot = dst.boot := hboot
  generalize (n.releaseInflight peer).markPeerUp peer = m at hquiet hboot' ⊢
  dsimp only
  split_ifs with hnewer hstate hok
  · exact hquiet.trans (becomeFollower_moves m _ _)
  · exact hquiet
  · have hlead : m.state = .leader := by simpa using hstate
    exact hquiet.trans (handleRejection_stays hinp hboot' hlead (by simpa using hok)).moves
  · have hlead : m.state = .leader := by simpa using hstate
    have hok' : resp.success = true := by simpa using hok
    cases hdep : m.departingPeer peer req with
    | some m' => exact hquiet.trans (departingPeer_stays hinp hboot' hlead hok' hdep).moves
    | none => exact hquiet.trans (handleSuccess_stays hinp hboot' hlead hok').moves

end

end

theorem notePeerUnreachable_moves (n : Node ι) (peer : ι) :
    Moves inp n (n.notePeerUnreachable peer) := by
  simp only [notePeerUnreachable, markPeerDown]
  split_ifs <;> exact .quiet rfl rfl

theorem handleAppendDropped_moves (n : Node ι) (peer : ι) :
    Moves inp n (n.handleAppendDropped peer) := by
  have hrelease : Moves inp n (n.releaseInflight peer) := .quiet rfl rfl
  exact hrelease.trans (notePeerUnreachable_moves _ peer)

end Node

end Raft
