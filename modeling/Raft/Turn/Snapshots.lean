import Raft.Turn.Replication

/-!
# The moves of snapshots

Receiving, installing and taking snapshots, and the progress of a peer that was sent
one, taken apart into moves.
-/

namespace Raft

variable {ι : Type} [DecidableEq ι] [Sized ι]

namespace Node

variable {inp : Input ι}

variable (n : Node ι)

theorem dropStaleTransfer_moves (req : InstallSnapshotRequest ι) :
    Moves inp n (n.dropStaleTransfer req) := by
  unfold dropStaleTransfer
  cases n.snapshots.pendingSnap with
  | none => exact .refl n
  | some p =>
    dsimp only
    split_ifs
    · exact .quiet rfl rfl
    · exact .refl n

variable (src : Asker ι)

theorem takeChunk_moves (dst : ι) (req : InstallSnapshotRequest ι) (p : PartialSnapshot ι)
    (hinp : inp = .msg (.installSnapshot src dst req)) : Moves inp n (n.takeChunk src req p) := by
  unfold takeChunk
  split_ifs
  · exact .refl n
  · exact .quiet rfl rfl
  · exact .head (m := { n with snapshots := { n.snapshots with
      pendingSnap := some { p with expectedOff := p.expectedOff + req.len } } }) (.quiet rfl rfl)
      (.of_move (.answer (replySnapshotWhenDurable_answers _ src req _) (.inr ⟨dst, hinp⟩)))

theorem handleInstallSnapshot_moves (dst : ι) (req : InstallSnapshotRequest ι)
    (hinp : inp = .msg (.installSnapshot src dst req)) :
    Moves inp n (n.handleInstallSnapshot src req) := by
  have hanswer : ∀ m : Node ι, Moves inp m (m.replySnapshotWhenDurable src req ⟨m.currentTerm⟩) :=
    fun m => .of_move (.answer (replySnapshotWhenDurable_answers m src req _) (.inr ⟨dst, hinp⟩))
  simp only [handleInstallSnapshot]
  by_cases hstale : req.term < n.currentTerm
  · rw [if_pos hstale]
    exact hanswer n
  · rw [if_neg hstale]
    have hfollow : Moves inp n
        (if n.currentTerm < req.term then n.becomeFollower req.term (some req.leaderID) else n) := by
      split_ifs
      · exact becomeFollower_moves n _ _
      · exact .refl n
    generalize (if n.currentTerm < req.term then n.becomeFollower req.term (some req.leaderID)
      else n) = m₀ at hfollow ⊢
    have hheard : Moves inp n { m₀ with leaderID := some req.leaderID }.resetElectionTimeout :=
      hfollow.trans (.quiet rfl rfl)
    generalize { m₀ with leaderID := some req.leaderID }.resetElectionTimeout = m₁ at hheard ⊢
    by_cases happlied : req.position.lastIncludedIndex ≤ m₁.lastApplied
    · rw [if_pos happlied]
      exact hheard.trans (hanswer m₁)
    · rw [if_neg happlied]
      have hdrop := hheard.trans (dropStaleTransfer_moves m₁ req)
      generalize m₁.dropStaleTransfer req = m₂ at hdrop ⊢
      cases m₂.snapshots.pendingSnap with
      | some p => exact hdrop.trans (takeChunk_moves m₂ src dst req p hinp)
      | none =>
        split_ifs
        · exact hdrop
        · exact hdrop.trans (.quiet rfl rfl)
        · refine hdrop.trans (.head (m := { m₂ with snapshots := { m₂.snapshots with
            pendingSnap := some ⟨req.snap, req.position, 0⟩, snapInstallAck := none } }) (.quiet rfl rfl) ?_)
          exact takeChunk_moves _ src dst req _ hinp

theorem answerSnapInstallAck_moves (index : Nat) (ok : Bool) (hinp : inp = .snapshot) :
    Moves inp n (n.answerSnapInstallAck index ok) := by
  unfold answerSnapInstallAck
  cases n.snapshots.snapInstallAck with
  | none => exact .refl n
  | some ack =>
    have hclear : Moves inp n { n with snapshots := { n.snapshots with snapInstallAck := none } } :=
      .quiet rfl rfl
    dsimp only
    split_ifs
    · exact .refl n
    · exact hclear.tail
        (.answer (replySnapshotWhenDurable_answers _ ack.dst ack.req ack.resp) (.inl hinp))
    · exact hclear

omit [DecidableEq ι] [Sized ι] in
theorem answerSnapInstallAck_frame (index : Nat) (ok : Bool) :
    ∃ ack out deferred, n.answerSnapInstallAck index ok = { n with
      snapshots := { n.snapshots with snapInstallAck := ack }
      out := out, deferredWrites := deferred } := by
  unfold answerSnapInstallAck
  split
  · dsimp only
    split_ifs
    · exact ⟨_, _, _, rfl⟩
    · unfold replySnapshotWhenDurable afterWrite
      split_ifs <;> exact ⟨_, _, _, rfl⟩
    · exact ⟨_, _, _, rfl⟩
  · exact ⟨_, _, _, rfl⟩

variable (snap : Snapshot ι)

/-- **An installed snapshot** is adopted when it is ahead of the node, and otherwise only the answer
changes. -/
theorem handleSnapInstallResult_cases (ok : Bool) :
    ∃ pending installing ack out deferred, ∃ m : Node ι, m = { n with
        snapshots := { n.snapshots with
          pendingSnap := pending, installingSnap := installing, snapInstallAck := ack }
        out := out, deferredWrites := deferred } ∧
      (ok = true ∧ n.lastApplied < snap.position.lastIncludedIndex ∧
          n.handleSnapInstallResult snap ok = m.adoptSnapshot snap ∨
        ¬ (ok = true ∧ n.lastApplied < snap.position.lastIncludedIndex) ∧
          n.handleSnapInstallResult snap ok = m) := by
  unfold handleSnapInstallResult
  dsimp only
  generalize (if n.snapshots.installingSnap = snap.position.lastIncludedIndex then 0
    else n.snapshots.installingSnap) = installing
  obtain ⟨ack, out, deferred, heq⟩ := answerSnapInstallAck_frame { n with snapshots := { n.snapshots with
    installingSnap := installing } } snap.position.lastIncludedIndex ok
  rw [heq]
  split_ifs with hok _ hstale
  · exact ⟨_, _, _, _, _, _, rfl, .inr ⟨fun h => (by simp [h.1] at hok), rfl⟩⟩
  · exact ⟨_, _, _, _, _, _, rfl, .inr ⟨fun h => (by simp [h.1] at hok), rfl⟩⟩
  · exact ⟨_, _, _, _, _, _, rfl, .inr ⟨fun h => Nat.not_le_of_lt h.2 hstale, rfl⟩⟩
  · exact ⟨_, _, _, _, _, _, rfl, .inl ⟨by simpa using hok, Nat.lt_of_not_le hstale, rfl⟩⟩

theorem raiseCommit_moves (idx : Nat) (hinp : inp = .snapshot) :
    Moves inp n (n.setCommitIndex idx) := by
  unfold setCommitIndex
  split_ifs with hle
  · exact .refl n
  · exact .head (.snapshotCommit n idx hinp (by omega)) (maybeRecordCommit_stays _).moves

omit [DecidableEq ι] [Sized ι] in
theorem adoptFrame_frame :
    ∃ m t, n.adoptFrame snap = { n with membership := m, clientTable := t } := by
  unfold adoptFrame
  cases snap.clientTableCap <;> exact ⟨_, _, rfl⟩

theorem adoptSnapshot_moves (hinp : inp = .snapshot) : Moves inp n (n.adoptSnapshot snap) := by
  have hrec : inp.Reconfigures := hinp ▸ trivial
  obtain ⟨m, t, hframe⟩ := adoptFrame_frame n snap
  have hmember : Moves inp n { n with membership := m, clientTable := t } :=
    .head (.member n m (.inl hrec)) (.of_move (.table _ t (hinp ▸ not_false)))
  simp only [adoptSnapshot, hframe]
  cases hlog : n.log.installSnapshot snap.position with
  | none => exact hmember
  | some log =>
    have hbase : Moves inp n { n with membership := m, clientTable := t, log := log } :=
      hmember.tail (.install _ snap log hinp hlog)
    have hrebuilt : ∀ m : Node ι, Moves inp n m → Moves inp n
        (if snap.membership.isSome = true then m.rebuildMembership.1.checkWitness else m) := by
      intro m hm
      split_ifs
      · exact hm.trans ((rebuildMembership_remains hrec m).trans (checkWitness_remains _)).moves
      · exact hm
    exact (hrebuilt _ hbase).trans (.head (.restore _ snap hinp) (raiseCommit_moves _ _ hinp))

theorem handleSnapInstallResult_moves (ok : Bool) (hinp : inp = .snapshot) :
    Moves inp n (n.handleSnapInstallResult snap ok) := by
  simp only [handleSnapInstallResult]
  generalize hm₀ : ({ n with snapshots := { n.snapshots with
    installingSnap := if n.snapshots.installingSnap = snap.position.lastIncludedIndex then 0
      else n.snapshots.installingSnap } } : Node ι) = m₀
  have hquiet : Moves inp n m₀ := hm₀ ▸ .quiet rfl rfl
  have hanswer := hquiet.trans
    (answerSnapInstallAck_moves m₀ snap.position.lastIncludedIndex ok hinp)
  generalize m₀.answerSnapInstallAck snap.position.lastIncludedIndex ok = m at hanswer ⊢
  split_ifs
  · exact hanswer.trans (.quiet rfl rfl)
  · exact hanswer
  · exact hanswer
  · exact hanswer.trans (adoptSnapshot_moves m snap hinp)

theorem maybeSnapshot_moves (hinp : ¬ inp.Calm) : Moves inp n n.maybeSnapshot := by
  unfold maybeSnapshot
  split_ifs with hoff hearly
  · exact .refl n
  · exact .refl n
  · cases n.log.termAt n.lastApplied with
    | none => exact .refl n
    | some term => exact .of_move (.trigger n _ (fun h => hoff (.inr h)) hinp)

theorem handleSnapshotResult_moves (r : SnapshotResult ι) (hinp : inp = .snapshot) :
    Moves inp n (n.handleSnapshotResult r) := by
  unfold handleSnapshotResult
  have hdone : Moves inp n { n with snapshots := { n.snapshots with snapshotting := false } } :=
    .of_move (.takeSnapshot n _ hinp)
  split_ifs
  · exact hdone
  · exact (hdone.tail (.compact _ r.trigger.position hinp)).tail (.member _ _ (.inl (hinp ▸ trivial)))

theorem handleInstallSnapshotResult_moves {n : Node ι} {peer : ι} {dst : Asker ι}
    {req : InstallSnapshotRequest ι} {resp : InstallSnapshotResponse}
    (hinp : inp = .msg (.installSnapshotReply peer dst req resp)) (hboot : n.boot = dst.boot) :
    Moves inp n (n.handleInstallSnapshotResult peer req resp) := by
  simp only [handleInstallSnapshotResult]
  have hrelease : Stays inp n (n.releaseSnapshotInflight peer) := .quiet rfl rfl
  have hboot' : (n.releaseSnapshotInflight peer).boot = dst.boot := hboot
  generalize n.releaseSnapshotInflight peer = m at hrelease hboot' ⊢
  by_cases hnewer : m.currentTerm < resp.term
  · rw [if_pos hnewer]
    exact hrelease.moves.trans (becomeFollower_moves m _ _)
  · rw [if_neg hnewer]
    by_cases hstate : m.state = .leader
    · rw [if_neg (not_not_intro hstate)]
      -- First the table entries are moved up to the snapshot, then they are put in order.
      have hmatch : Stays inp m
          (if lookup m.matchIndex peer ≤ req.position.lastIncludedIndex then
            { m with
              nextIndex := assign m.nextIndex peer (some (req.position.lastIncludedIndex + 1))
              matchIndex := assign m.matchIndex peer (some req.position.lastIncludedIndex) }
          else m) := by
        split_ifs
        · exact .of_move (.snapshotMatch m peer dst req resp hinp hboot' hstate) rfl rfl rfl rfl
        · exact .refl m
      generalize (if lookup m.matchIndex peer ≤ req.position.lastIncludedIndex then
        { m with
          nextIndex := assign m.nextIndex peer (some (req.position.lastIncludedIndex + 1))
          matchIndex := assign m.matchIndex peer (some req.position.lastIncludedIndex) }
        else m) = m₁ at hmatch ⊢
      have hnext : Stays inp m₁
          (if lookup m₁.nextIndex peer ≤ lookup m₁.matchIndex peer then
            { m₁ with nextIndex := assign m₁.nextIndex peer (some (lookup m₁.matchIndex peer + 1)) }
          else m₁) := by
        split_ifs
        · exact .of_move (.nextBehindMatch m₁ peer (hmatch.leader hstate)) rfl rfl rfl rfl
        · exact .refl m₁
      have hcommit := (hmatch.trans hnext).trans (maybeAdvanceCommit_stays _)
      exact (hrelease.trans (hcommit.trans
        (continue_stays (.inl (hcommit.leader hstate)) peer _))).moves
    · rw [if_pos hstate]
      exact hrelease.moves

theorem handleInstallSnapshotDropped_moves (peer : ι) (req : InstallSnapshotRequest ι)
    (hinp : inp = .lost (.installSnapshot src peer req)) :
    Moves inp n (n.handleInstallSnapshotDropped peer) := by
  have hrelease : Stays inp n (n.releaseSnapshotInflight peer) := .quiet rfl rfl
  exact (hrelease.trans (continue_stays (.inr ⟨src, peer, req, hinp⟩) peer _)).moves

end Node

end Raft
