import Raft.Turn.Moves

/-!
# The moves of a leader

What a leader sends, commits and appends, taken apart into moves.  None of it
changes the leader's term, its state or its membership, so these functions can be
called one after the other.
-/

namespace Raft

variable {ι : Type} [DecidableEq ι] [Sized ι]

namespace Node

variable {inp : Input ι} {n : Node ι}

structure Remains (inp : Input ι) (n n' : Node ι) : Prop where
  moves : Moves inp n n'
  tenure : n'.tenure = n.tenure

/-- A sequence of moves after which the node has the same role in the same group. -/
structure Stays (inp : Input ι) (n n' : Node ι) : Prop extends Remains inp n n' where
  currentTerm : n'.currentTerm = n.currentTerm
  membership : n'.membership = n.membership
  boot : n'.boot = n.boot

namespace Remains

variable {n m n' : Node ι}

theorem refl (n : Node ι) : Remains inp n n := ⟨.refl n, rfl⟩

theorem trans (h : Remains inp n m) (h' : Remains inp m n') : Remains inp n n' :=
  ⟨h.moves.trans h'.moves, h'.tenure.trans h.tenure⟩

theorem of_move (h : Move inp n n') (htenure : n'.tenure = n.tenure) : Remains inp n n' :=
  ⟨.of_move h, htenure⟩

section

variable (h : Remains inp n n')

include h

theorem side : n'.side = n.side := congrArg Tenure.side h.tenure

theorem state : n'.state = n.state := congrArg Tenure.state h.tenure

theorem cfg : n'.cfg = n.cfg := congrArg Side.cfg h.side

theorem leader (hn : n.state = .leader) : n'.state = .leader :=
  h.state.trans hn

end

end Remains

namespace Stays

variable {n m n' : Node ι}

theorem refl (n : Node ι) : Stays inp n n := ⟨.refl n, rfl, rfl, rfl⟩

theorem trans (h : Stays inp n m) (h' : Stays inp m n') : Stays inp n n' :=
  ⟨h.toRemains.trans h'.toRemains, h'.currentTerm.trans h.currentTerm,
    h'.membership.trans h.membership, h'.boot.trans h.boot⟩

theorem of_move (h : Move inp n n') (htenure : n'.tenure = n.tenure)
    (hterm : n'.currentTerm = n.currentTerm) (hmem : n'.membership = n.membership)
    (hboot : n'.boot = n.boot) : Stays inp n n' :=
  ⟨.of_move h htenure, hterm, hmem, hboot⟩

theorem quiet (h : n'.toCore = n.toCore) (hs : n'.shell = n.shell) : Stays inp n n' :=
  .of_move (.quiet h hs) (tenure_of_core h hs rfl rfl rfl) (congrArg Core.currentTerm h)
    (congrArg Core.membership h) (congrArg Core.boot h)

theorem rounds (h : n.OnlyReads n') (hreads : n.Attached → n'.Attached) : Stays inp n n' :=
  .of_move (.rounds h hreads) h.tenure (congrArg Core.currentTerm h.core)
    (congrArg Core.membership h.core) (congrArg Core.boot h.core)

theorem of_foldl {α : Type} {f : Node ι → α → Node ι} (P : Node ι → Prop)
    (hP : ∀ {n n'}, Stays inp n n' → P n → P n')
    (hf : ∀ n a, P n → Stays inp n (f n a)) (as : List α) (hn : P n) :
    Stays inp n (as.foldl f n) := by
  induction as generalizing n with
  | nil => exact .refl n
  | cons a as ih => exact (hf n a hn).trans (ih (hP (hf n a hn) hn))

end Stays

theorem maybeRecordCommit_stays (n : Node ι) : Stays inp n n.maybeRecordCommit := by
  simp only [maybeRecordCommit]
  split_ifs
  · exact .refl n
  · exact .refl n
  · exact Stays.trans (.of_move (.record n) rfl rfl rfl rfl) (.quiet rfl rfl)

theorem notifyApply_stays (n : Node ι) : Stays inp n n.notifyApply := by
  simp only [notifyApply]
  split_ifs
  · exact .refl n
  · exact .of_move (.notify n) rfl rfl rfl rfl

theorem setCommitIndex_stays {idx : Nat} (hgt : n.commitIndex < idx)
    (h : Move inp n { n with commitIndex := idx }) :
    Stays inp n (n.setCommitIndex idx).notifyApply := by
  have hset : n.setCommitIndex idx = { n with commitIndex := idx }.maybeRecordCommit := by
    rw [setCommitIndex, if_neg (by omega)]
  rw [hset]
  exact Stays.trans (.of_move h rfl rfl rfl rfl)
    ((maybeRecordCommit_stays _).trans (notifyApply_stays _))

theorem broadcastHeartbeat_stays (h : n.state = .leader) : Stays inp n n.broadcastHeartbeat := by
  rw [broadcastHeartbeat_eq]
  refine .of_move (.sendAppends n _ (.inl h) ?_) rfl rfl rfl rfl
  intro msg hmsg
  obtain ⟨peer, -, rfl⟩ := List.mem_map.mp hmsg
  exact ⟨peer, _, .empty 0, rfl⟩

theorem broadcastReadBarrier_stays (h : n.state = .leader) :
    Stays inp n n.broadcastReadBarrier := by
  refine .of_move (.sendAppends n _ (.inl h) ?_) rfl rfl rfl rfl
  intro msg hmsg
  obtain ⟨peer, -, rfl⟩ := List.mem_map.mp hmsg
  exact ⟨peer, _, .empty _, rfl⟩

theorem startReadBatch_stays {m : Node ι} (hm : n.OnlyReads m) (h : n.state = .leader)
    (hpending : m.pendingReads ≠ []) : Stays inp n m.startReadBatch := by
  have hopen := hm.openReadBatch
  unfold startReadBatch
  dsimp only
  split_ifs with hsingle hwaiting
  · exact .rounds hopen.resolveReadBatch fun _ => .idle rfl rfl (List.isEmpty_iff.mp hwaiting)
  · exact .rounds hopen.resolveReadBatch.promoteWaitingReads.openReadBatch.resolveReadBatch
      fun _ => .idle rfl rfl rfl
  · have hasks : Stays inp n m.openReadBatch := .rounds hopen fun _ => .asking rfl hpending
    exact hasks.trans (broadcastReadBarrier_stays (hasks.leader h))

theorem confirmReadBatch_stays (h : n.state = .leader) : Stays inp n n.confirmReadBatch := by
  unfold confirmReadBatch
  dsimp only
  split_ifs with hwaiting
  · exact .rounds ⟨rfl, rfl⟩ fun _ => .idle rfl rfl (List.isEmpty_iff.mp hwaiting)
  · exact startReadBatch_stays (OnlyReads.resolveReadBatch ⟨rfl, rfl⟩).promoteWaitingReads h
      fun hnil => hwaiting (List.isEmpty_iff.mpr hnil)

omit [Sized ι] in
theorem highestCommitted_spec {lo idx : Nat} (h : n.highestCommitted lo = some idx) :
    lo ≤ idx ∧ idx ≤ n.log.lastLogIndex ∧ n.committedAt idx = true := by
  have hmem := List.mem_of_find?_eq_some h
  rw [List.mem_reverse, List.mem_range'_1] at hmem
  exact ⟨hmem.1, by omega, List.find?_some h⟩

theorem maybeAdvanceCommit_stays (n : Node ι) : Stays inp n n.maybeAdvanceCommit := by
  simp only [maybeAdvanceCommit]
  split_ifs with hno
  · exact .refl n
  · push Not at hno
    split
    · exact .refl n
    · rename_i idx hidx
      obtain ⟨hlo, hhi, hquorum⟩ := highestCommitted_spec hidx
      have hcommit : Stays inp n (n.setCommitIndex idx).notifyApply :=
        setCommitIndex_stays (by omega)
          (.commit n idx hno.1 hno.2 (by omega) (by omega) hhi hquorum)
      have hlead := hcommit.leader hno.1
      -- The first commit of the term starts the round of the reads that were held back.
      split_ifs with hopen hnil
      · exact hcommit
      · exact hcommit.trans
          (.rounds ⟨rfl, rfl⟩ fun ha => ha.openTerm (List.isEmpty_iff.mp hnil))
      · exact hcommit.trans
          (startReadBatch_stays ⟨rfl, rfl⟩ hlead fun h => hnil (List.isEmpty_iff.mpr h))

omit [Sized ι] in
theorem foldl_endDeparture_toCore (n : Node ι) (peers : List ι) :
    (peers.foldl endDeparture n).toCore = { n.toCore with
      nextIndex := fun p => if peers.contains p then none else n.nextIndex p
      matchIndex := fun p => if peers.contains p then none else n.matchIndex p
      departing := n.departing.filter fun d => !peers.contains d.peer } := by
  induction peers generalizing n with
  | nil => simp
  | cons peer peers ih =>
    rw [List.foldl_cons, ih]
    simp only [endDeparture, List.filter_filter]
    congr 1
    · funext p
      by_cases hp : p = peer <;> simp [assign, hp]
    · funext p
      by_cases hp : p = peer <;> simp [assign, hp]
    · refine List.filter_congr fun d _ => ?_
      by_cases hd : d.peer = peer <;> simp [hd]

omit [Sized ι] in
theorem foldl_endDeparture_shell (n : Node ι) (peers : List ι) :
    (peers.foldl endDeparture n).shell = n.shell := by
  induction peers generalizing n with
  | nil => rfl
  | cons peer peers ih => exact ih (n.endDeparture peer)

theorem foldl_endDeparture_stays (h : n.departing ≠ []) (peers : List ι) :
    Stays inp n (peers.foldl endDeparture n) :=
  .trans (.of_move (.untrack n peers h) rfl rfl rfl rfl)
    (.quiet (foldl_endDeparture_toCore n peers) (foldl_endDeparture_shell n peers))

theorem sendSnapshotToPeer_stays (peer : ι)
    (h : n.log.canDescribe (predIndex (lookup n.nextIndex peer)) = false) :
    Stays inp n (n.sendSnapshotToPeer peer) := by
  unfold sendSnapshotToPeer
  split
  · rename_i inflight snap _ hsnap
    by_cases hin : inflight.contains peer = true
    · rw [if_pos hin]
      exact .refl n
    · rw [if_neg hin]
      have hquiet : Stays inp n { n with snapshotInflight := some (peer :: inflight) } :=
        .quiet rfl rfl
      refine hquiet.trans (.of_move (.sendSnapshots _ snap _ hsnap ?_) rfl rfl rfl rfl)
      intro msg hmsg
      obtain ⟨⟨offset, len, last⟩, -, rfl⟩ := List.mem_map.mp hmsg
      refine ⟨peer, _, rfl, rfl, rfl, ?_, ?_, h⟩
      · split_ifs <;> rfl
      · split_ifs
        · exact .inr rfl
        · exact .inl rfl
  · exact .refl n

/-- Those who replicate: the leader, and whoever hears that a snapshot was lost. -/
def MayReplicate (inp : Input ι) (n : Node ι) : Prop :=
  n.state = .leader ∨ ∃ src dst req, inp = .lost (.installSnapshot src dst req)

theorem MayReplicate.stays {n' : Node ι} (h : Stays inp n n') (hn : n.MayReplicate inp) :
    n'.MayReplicate inp :=
  hn.imp_left h.toRemains.leader

theorem replicateToPeer_stays (h : n.MayReplicate inp) (peer : ι) :
    Stays inp n (n.replicateToPeer peer) := by
  simp only [replicateToPeer]
  split_ifs with hdesc hdep hfull
  · refine foldl_endDeparture_stays ?_ [peer]
    rintro hnil
    simp [hnil] at hdep
  · exact sendSnapshotToPeer_stays peer (by simpa using hdesc)
  · exact .refl n
  · split
    · exact .refl n
    · rename_i es hes
      have hquiet : Stays inp n { n with inflight := assign n.inflight peer (n.inflight peer + 1) } :=
        .quiet rfl rfl
      refine hquiet.trans (.of_move (.sendAppends _ _ (h.imp_left hquiet.leader) ?_) rfl rfl rfl rfl)
      intro msg hmsg
      obtain rfl := List.mem_singleton.mp hmsg
      exact ⟨peer, _, .entries es (by simpa using hdesc) hes, rfl⟩

theorem replicateToFollowers_stays (h : n.state = .leader) :
    Stays inp n n.replicateToFollowers := by
  have hrep : ∀ (m : Node ι) (peers : List ι), m.MayReplicate inp →
      Stays inp m (peers.foldl replicateToPeer m) := fun m peers hm =>
    .of_foldl (MayReplicate inp) MayReplicate.stays (fun _ peer hn => replicateToPeer_stays hn peer)
      peers hm
  have hfirst := hrep n (n.membership.peers.map (·.id)) (.inl h)
  exact hfirst.trans (hrep _ _ (MayReplicate.stays hfirst (.inl h)))

theorem afterWrite_proposals_stays (n : Node ι) (seq : Nat) (indices : List Nat) :
    Stays inp n (n.afterWrite seq (.proposals indices) id) := by
  rcases afterWrite_cases n seq (.proposals indices) id with ⟨-, heq⟩ | ⟨-, heq⟩ <;> rw [heq]
  · exact .refl n
  · exact .of_move (.hold n _ trivial) rfl rfl rfl rfl

theorem appendFinaliseEntry_stays (h : n.state = .leader) (newPeers : List (PeerConfig ι))
    (includeSelf selfVoter : Bool) :
    Stays inp { n with
        log := (n.log.append [⟨n.log.lastLogIndex + 1, n.currentTerm, .config (.finalise
          (withSelf newPeers n.cfg.id includeSelf selfVoter n.cfg.witness))⟩]).2
        pendingConfigIndex := n.log.lastLogIndex + 1 }
      (n.appendFinaliseEntry newPeers includeSelf selfVoter) := by
  unfold appendFinaliseEntry
  dsimp only
  generalize n.log.append _ = appended
  have hhold : Stays inp _ _ := afterWrite_proposals_stays { n with
    log := appended.2, pendingConfigIndex := n.log.lastLogIndex + 1 } appended.1
    [n.log.lastLogIndex + 1]
  exact hhold.trans ((replicateToFollowers_stays (hhold.leader h)).trans (maybeAdvanceCommit_stays _))

theorem appendFinaliseEntry_moves (hinp : inp.Appends) (h : n.state = .leader)
    (hjoint : n.membership.jointOld.isSome = true) (newPeers : List (PeerConfig ι))
    (includeSelf selfVoter : Bool) :
    Moves inp n (n.appendFinaliseEntry newPeers includeSelf selfVoter) := by
  refine .head (.append n _ h (by simp) (by simp) (fun e he => ?_) (fun _ => Contiguous.singleton _) hinp)
    (.head (.pend _ _ hinp) (appendFinaliseEntry_stays h newPeers includeSelf selfVoter).moves)
  obtain rfl := List.mem_singleton.mp he
  exact .inr (.inr (.inr ⟨hjoint, _, rfl⟩))

end Node

end Raft
