import Raft.Election.HardState

/-!
# Votes

A vote counts once it is on disk: the answer that grants it, and a candidate's own
candidacy, are held back until then.  The record of the votes that have reached a disk
only grows, and everything a node sends, holds back or counts refers to it.

The groups considered have one set of full voters `V`.

## Main results

* `CountsUnder.reaches`: counting acknowledgements is counting voters.
* `Elected.unique`: one winner.
* `Votes.same`: what changes nothing about votes keeps the invariant.
-/

namespace Raft

variable {ι : Type}

open HardState

/-- The votes that have reached a disk: who has voted for whom in which term. -/
abbrev VoteRecord (ι : Type) := ι → Nat → ι → Prop

/-- Nobody has voted twice in a term. -/
def OneVote (voted : VoteRecord ι) : Prop :=
  ∀ q term c c', voted q term c → voted q term c' → c = c'

/-! ## Counting voters -/

/-- The membership in effect is not joint, and its voters are `V`. -/
structure Node.CountsUnder (V : Finset ι) (n : Node ι) : Prop where
  single : n.membership.jointOld = none
  nodup : (n.cfg.id :: n.membership.peers.map (·.id)).Nodup
  voters : ∀ q, q ∈ V ↔ q = n.cfg.id ∧ n.membership.voter = true ∨
    ∃ peer ∈ n.membership.peers, peer.id = q ∧ peer.voter = true

instance Node.CountsUnder.decidable [DecidableEq ι] [Fintype ι] (V : Finset ι) (n : Node ι) :
    Decidable (n.CountsUnder V) :=
  decidable_of_iff ((n.membership.jointOld = none ∧
    (n.cfg.id :: n.membership.peers.map (·.id)).Nodup) ∧
      ∀ q, q ∈ V ↔ q = n.cfg.id ∧ n.membership.voter = true ∨
        ∃ peer ∈ n.membership.peers, peer.id = q ∧ peer.voter = true)
    ⟨fun h => ⟨h.1.1, h.1.2, h.2⟩, fun h => ⟨⟨h.single, h.nodup⟩, h.voters⟩⟩

namespace Node

def voterIDs (n : Node ι) : List ι :=
  (if n.membership.voter then [n.cfg.id] else []) ++
    (n.membership.peers.filter (·.voter)).map (·.id)

namespace CountsUnder

variable {V : Finset ι} {n : Node ι}

theorem congr {n' : Node ι} (h : n.CountsUnder V) (hcfg : n'.cfg = n.cfg)
    (hm : n'.membership = n.membership) : n'.CountsUnder V :=
  ⟨by rw [hm]; exact h.single, by rw [hcfg, hm]; exact h.nodup,
    fun q => by rw [hcfg, hm]; exact h.voters q⟩

theorem nodup_voterIDs (h : n.CountsUnder V) : n.voterIDs.Nodup := by
  refine h.nodup.sublist ?_
  have hpeers : ((n.membership.peers.filter (·.voter)).map (·.id)).Sublist
      (n.membership.peers.map (·.id)) := List.filter_sublist.map _
  unfold voterIDs
  split_ifs
  · exact hpeers.cons_cons _
  · exact hpeers.cons _

theorem mem_voterIDs (h : n.CountsUnder V) (q : ι) : q ∈ n.voterIDs ↔ q ∈ V := by
  rw [h.voters, voterIDs, List.mem_append]
  refine or_congr ?_ ?_
  · split_ifs with hv <;> simp [hv]
  · simp only [List.mem_map, List.mem_filter]
    constructor
    · rintro ⟨peer, ⟨hmem, hv⟩, rfl⟩
      exact ⟨peer, hmem, rfl, hv⟩
    · rintro ⟨peer, hmem, rfl, hv⟩
      exact ⟨peer, ⟨hmem, hv⟩, rfl⟩

variable [DecidableEq ι]

section

variable (h : n.CountsUnder V)

include h

theorem toFinset_voterIDs : n.voterIDs.toFinset = V := by
  ext q
  rw [List.mem_toFinset, h.mem_voterIDs]

theorem card_inter (S : Finset ι) : (V ∩ S).card = n.voterIDs.countP (· ∈ S) := by
  have heq : V ∩ S = (n.voterIDs.filter (· ∈ S)).toFinset := by
    ext q
    simp only [Finset.mem_inter, List.mem_toFinset, List.mem_filter, h.mem_voterIDs,
      decide_eq_true_eq]
  rw [heq, List.toFinset_card_of_nodup (h.nodup_voterIDs.filter _), List.countP_eq_length_filter]

theorem card_eq : V.card = n.membership.peers.countP (·.voter) +
    if n.membership.voter = true then 1 else 0 := by
  rw [← h.toFinset_voterIDs, List.toFinset_card_of_nodup h.nodup_voterIDs, voterIDs,
    List.length_append, List.length_map, List.countP_eq_length_filter]
  split_ifs <;> simp [Nat.add_comm]

/-- **Counting acknowledgements is counting voters**: the node counts itself. -/
theorem reaches {kind : QuorumKind} {acks : List ι} (hack : n.membership.acked kind acks = true) :
    Reaches kind n.membership.commitQuorumApplied n.membership.commitQuorumLatest V
      (insert n.cfg.id acks.toFinset) := by
  simp only [Membership.acked, h.single, Membership.hasQuorumAck, Bool.true_and,
    Membership.quorumNeeded, decide_eq_true_eq] at hack
  have hself : n.cfg.id ∉ n.membership.peers.map (·.id) := (List.nodup_cons.mp h.nodup).1
  -- the node is not among its own peers, so it is counted once
  have hpeers : ((n.membership.peers.filter (·.voter)).map (·.id)).countP
      (· ∈ insert n.cfg.id acks.toFinset) =
        n.membership.peers.countP fun p => p.voter && acks.contains p.id := by
    rw [List.countP_map, List.countP_filter]
    refine List.countP_congr fun p hp => ?_
    have hne : p.id ≠ n.cfg.id := fun heq => hself (heq ▸ List.mem_map_of_mem hp)
    simp [hne, and_comm]
  unfold Reaches
  rw [h.card_inter, voterIDs, List.countP_append, hpeers, h.card_eq]
  refine hack.trans (le_of_eq ?_)
  congr 1
  split_ifs <;> simp

theorem reaches_of_single (hs : n.membership.isSingleVoter = true) :
    Reaches .electionQuorum 0 0 V {n.cfg.id} := by
  simp only [Membership.isSingleVoter, Bool.and_eq_true, List.all_eq_true,
    Bool.not_eq_true'] at hs
  have hV : V = {n.cfg.id} := by
    ext q
    rw [h.voters, Finset.mem_singleton]
    constructor
    · rintro (⟨rfl, -⟩ | ⟨peer, hmem, -, hv⟩)
      · rfl
      · rw [hs.2 peer hmem] at hv
        cases hv
    · exact fun heq => .inl ⟨heq, hs.1⟩
  rw [hV, Reaches, Finset.inter_self, Finset.card_singleton]
  decide

end

end CountsUnder

end Node

/-- An election quorum of `V` has voted for `p` in the term. -/
def Elected [DecidableEq ι] (V : Finset ι) (voted : VoteRecord ι) (term : Nat) (p : ι) : Prop :=
  V.Nonempty ∧ ∃ E a l, Reaches .electionQuorum a l V E ∧ ∀ q ∈ E, voted q term p

theorem Elected.mono [DecidableEq ι] {V : Finset ι} {voted voted' : VoteRecord ι} {term : Nat}
    {p : ι} (h : Elected V voted term p) (hle : voted ≤ voted') : Elected V voted' term p := by
  obtain ⟨hne, E, a, l, hE, hvotes⟩ := h
  exact ⟨hne, E, a, l, hE, fun q hq => hle q term p (hvotes q hq)⟩

/-- **One winner**: when nobody votes twice in a term, nobody else is elected in it. -/
theorem Elected.unique [DecidableEq ι] {V : Finset ι} {voted : VoteRecord ι} {term : Nat} {p p' : ι}
    (hone : OneVote voted) (h : Elected V voted term p) (h' : Elected V voted term p') : p = p' := by
  obtain ⟨hne, E, a, l, hE, hvotes⟩ := h
  obtain ⟨-, E', a', l', hE', hvotes'⟩ := h'
  obtain ⟨q, hq⟩ := elect_inter_elect hne hE hE'
  simp only [Finset.mem_inter] at hq
  exact hone q term p p' (hvotes q hq.1.2) (hvotes' q hq.2.2)

/-! ## What is said and held back -/

/-- A vote is on disk, or on its way under a number up to `seq`, or the writer has failed. -/
def Pending (voted : VoteRecord ι) (p : ι) (w : StorageWriter ι) (ds : List WriteDone)
    (seq term : Nat) (c : ι) : Prop :=
  voted p term c ∨ (∃ op ∈ w.queue, op.seq ≤ seq ∧ op.kind = .hardState ⟨term, some c⟩) ∨
    w.failed = true ∧ ∀ d ∈ w.done ++ ds, d.err = false → d.seq < seq

section Vouched

variable (V : Finset ι) (voted : VoteRecord ι) (p : ι)

/-- What a message of `p` about votes rests on. -/
def Msg.Vouched : Msg ι → Prop
  | .requestVote src _ req =>
    req.preVote = false → src.id = p ∧ req.candidateID = p ∧ voted p req.term p
  | .requestVoteReply src dst req resp =>
    req.preVote = false → resp.voteGranted = true →
      src = p ∧ resp.term = req.term ∧ dst.id = req.candidateID ∧ p ∈ V ∧
        voted p req.term req.candidateID ∧ voted req.candidateID req.term req.candidateID
  | _ => True

/-- What work of `p` about votes rests on; `mine` are the votes `p` relies on. -/
def Deferred.Vouched (mine : Nat → ι → Prop) : Deferred ι → Prop
  | .requestVoteReply dst req resp =>
    req.preVote = false → resp.voteGranted = true →
      resp.term = req.term ∧ dst.id = req.candidateID ∧ p ∈ V ∧
        mine req.term req.candidateID ∧ voted req.candidateID req.term req.candidateID
  | .campaign term => mine term p
  | _ => True

end Vouched

section Vouched

variable {V : Finset ι} {voted voted' : VoteRecord ι} {p c : ι} {work : Deferred ι}
  {ds : List WriteDone} {seq term : Nat}

theorem Msg.Vouched.mono {msg : Msg ι} (h : msg.Vouched V voted p) (hle : voted ≤ voted') :
    msg.Vouched V voted' p := by
  cases msg with
  | requestVote src dst req =>
    intro hpre
    obtain ⟨hsrc, hcand, hvote⟩ := h hpre
    exact ⟨hsrc, hcand, hle _ _ _ hvote⟩
  | requestVoteReply src dst req resp =>
    intro hpre hgranted
    obtain ⟨hsrc, hterm, hdst, hV, hvote, hown⟩ := h hpre hgranted
    exact ⟨hsrc, hterm, hdst, hV, hle _ _ _ hvote, hle _ _ _ hown⟩
  | _ => exact trivial

theorem Deferred.Vouched.mono {mine mine' : Nat → ι → Prop} (h : work.Vouched V voted p mine)
    (hle : voted ≤ voted') (hmine : ∀ term c, mine term c → mine' term c) :
    work.Vouched V voted' p mine' := by
  cases work with
  | requestVoteReply dst req resp =>
    intro hpre hgranted
    obtain ⟨hterm, hdst, hV, hvote, hown⟩ := h hpre hgranted
    exact ⟨hterm, hdst, hV, hmine _ _ hvote, hle _ _ _ hown⟩
  | campaign term => exact hmine _ _ h
  | _ => exact trivial

theorem Deferred.Vouched.answer (h : work.Vouched V voted p (voted p)) :
    ∀ msg ∈ work.answer p, msg.Vouched V voted p := by
  intro msg hmsg
  cases work with
  | requestVoteReply dst req resp =>
    obtain rfl := List.mem_singleton.mp hmsg
    intro hpre hgranted
    exact ⟨rfl, h hpre hgranted⟩
  | appendEntriesReply dst req resp | installSnapshotReply dst req resp =>
    obtain rfl := List.mem_singleton.mp hmsg
    exact trivial
  | campaign term | proposals indices => cases hmsg

theorem Msg.Harmless.vouched {msg : Msg ι} (h : msg.Harmless) : msg.Vouched V voted p := by
  cases msg with
  | requestVote src dst req =>
    intro hpre
    cases hpre.symm.trans h
  | requestVoteReply src dst req resp =>
    intro hpre hgranted
    rcases h with h | h
    · cases hpre.symm.trans h
    · cases hgranted.symm.trans h
  | _ => exact trivial

theorem Deferred.Harmless.vouched {mine : Nat → ι → Prop} (h : work.Harmless) :
    work.Vouched V voted p mine := by
  cases work with
  | requestVoteReply dst req resp =>
    intro hpre hgranted
    rcases h with h | h
    · cases hpre.symm.trans h
    · cases hgranted.symm.trans h
  | campaign term => cases h
  | _ => exact trivial

theorem Pending.mono {w : StorageWriter ι} (h : Pending voted p w ds seq term c)
    (hle : voted ≤ voted') : Pending voted' p w ds seq term c :=
  h.imp_left (hle _ _ _)

theorem Pending.voted_of_done {rl : RaftLog ι} {d : WriteDone}
    (h : Pending voted p rl.w ds seq term c) (hnum : rl.Numbered ds) (hd : d ∈ ds)
    (hok : d.err = false) (hseq : seq ≤ d.seq) : voted p term c := by
  have hmem : d ∈ rl.w.done ++ ds := List.mem_append_right _ hd
  rcases h with h | ⟨op, hop, hle, -⟩ | ⟨-, hnone⟩
  · exact h
  · have := (hnum.done d hmem).2 op hop
    omega
  · have := hnone d hmem hok
    omega

theorem Pending.queues {rl rl' : RaftLog ι} {ops : List (WriteOp ι)}
    (h : Pending voted p rl.w ds seq term c) (hq : rl.Queues rl' ops) :
    Pending voted p rl'.w ds seq term c := by
  rw [hq.w]
  rcases h with h | ⟨op, hop, hle, hk⟩ | h
  · exact .inl h
  · exact .inr (.inl ⟨op, List.mem_append_left _ hop, hle, hk⟩)
  · exact .inr (.inr h)

theorem Pending.executes (rl rl' : RaftLog ι) {ops rest executed : List (WriteOp ι)}
    (h : Pending voted p rl.w ds seq term c)
    (hex : StorageWriter.Executes rl.w rl'.w ops rest executed) (hnum : rl.Numbered ds)
    (hle : voted ≤ voted')
    (hnew : ∀ term c, ⟨term, some c⟩ ∈ queuedHardStates executed → voted' p term c) :
    Pending voted' p rl'.w ds seq term c := by
  -- the reports of a failed round are not among those that count
  have hreports : ∀ d, rl'.w.done = rl.w.done ++ ops.map (fun op => ⟨op.seq, op.durableAfter, true⟩) →
      d ∈ rl'.w.done ++ ds → d.err = false → d ∈ rl.w.done ++ ds := by
    intro d hdone hd hok
    simp only [hdone, List.append_assoc, List.mem_append, List.mem_map] at hd ⊢
    rcases hd with hd | ⟨op, -, rfl⟩ | hd
    · exact .inl hd
    · cases hok
    · exact .inr hd
  -- the vote is on disk, still queued, or lost to a writer that has failed
  rcases h with h | ⟨op, hop, hseq, hk⟩ | ⟨hf, hnone⟩
  · exact .inl (hle _ _ _ h)
  · have hop' := hop
    rw [hex.queue, List.mem_append] at hop'
    rcases hop' with hop' | hop'
    · rcases hex.outcome with ⟨-, hall, -⟩ | ⟨hf, hdone⟩
      · exact .inl (hnew term c (mem_queuedHardStates.mpr ⟨op, hall ▸ hop', hk⟩))
      · have hf : rl'.w.failed = true := hf.resolve_right (List.ne_nil_of_mem hop')
        refine .inr (.inr ⟨hf, fun d hd hok => ?_⟩)
        have := (hnum.done d (hreports d hdone hd hok)).2 op hop
        omega
    · exact .inr (.inl ⟨op, by rw [hex.left]; exact hop', hseq, hk⟩)
  · rcases hex.outcome with ⟨hno, -⟩ | ⟨-, hdone⟩
    · rw [hf] at hno
      cases hno
    · exact .inr (.inr ⟨hex.failed hf, fun d hd hok => hnone d (hreports d hdone hd hok) hok⟩)

end Vouched

/-! ## The invariant -/

namespace Node

variable [DecidableEq ι]

/-- What the votes, the candidacy and the leadership of node `p` rest on. -/
structure Votes (V : Finset ι) (voted : VoteRecord ι) (p : ι) (n : Node ι) (ds : List WriteDone) :
    Prop where
  id : n.cfg.id = p
  aligned : n.Aligned
  kept : ∀ term c, voted p term c → Precedes ⟨term, some c⟩ n.log.w.storage.hs
  out : ∀ msg ∈ n.out, msg.Vouched V voted p
  deferred : ∀ d ∈ n.deferredWrites, d.work.Vouched V voted p (Pending voted p n.log.w ds d.seq)
  candidate : n.state = .candidate → ∀ q ∈ n.receivedVoteSet,
    q ∈ V ∧ voted q n.currentTerm p ∧ voted p n.currentTerm p
  leader : n.state = .leader → Elected V voted n.currentTerm p

/-- A change that has nothing to do with votes. -/
structure SameVotes (V : Finset ι) (voted : VoteRecord ι) (n n' : Node ι) (ds : List WriteDone) :
    Prop where
  cfg : n'.cfg = n.cfg
  hardState : n'.hardState = n.hardState
  log : n.log.Extends n'.log
  state : n'.state = n.state ∨ n'.state = .follower ∨ n'.state = .preCandidate
  votes : n'.receivedVoteSet = n.receivedVoteSet ∨ n'.state ≠ .candidate
  deferred : ∀ d ∈ n'.deferredWrites, d ∈ n.deferredWrites ∨
    d.work.Vouched V voted n.cfg.id (Pending voted n.cfg.id n'.log.w ds d.seq)
  out : ∀ msg ∈ n'.out, msg ∈ n.out ∨ msg.Vouched V voted n.cfg.id

section SameVotes

variable {V : Finset ι} {voted : VoteRecord ι} {p : ι} {n n' : Node ι} {ds : List WriteDone}

theorem Votes.same (hn : n.Votes V voted p ds) (hnum : n.Numbered ds)
    (h : SameVotes V voted n n' ds) : n'.Votes V voted p ds := by
  obtain ⟨ops, hops, hplain⟩ := h.log hnum.log.running
  have hterm : n'.currentTerm = n.currentTerm := congrArg HardState.currentTerm h.hardState
  have hstate : n'.state = .candidate ∨ n'.state = .leader → n'.state = n.state := by
    rcases h.state with h | h | h <;> simp [h]
  refine ⟨by rw [h.cfg, hn.id], hn.aligned.of_queues hops hplain h.hardState, ?_, ?_, ?_, ?_, ?_⟩
  · rw [hops.w]
    exact hn.kept
  · intro msg hmsg
    rcases h.out msg hmsg with h | h
    · exact hn.out msg h
    · rwa [hn.id] at h
  · intro d hd
    rcases h.deferred d hd with h | h
    · exact (hn.deferred d h).mono (le_refl _) fun term c hc => hc.queues hops
    · rwa [hn.id] at h
  · intro hcand q hq
    have hvotes := h.votes.resolve_right (not_not_intro hcand)
    rw [hvotes] at hq
    rw [hterm]
    exact hn.candidate ((hstate (.inl hcand)).symm.trans hcand) q hq
  · intro hlead
    rw [hterm]
    exact hn.leader ((hstate (.inr hlead)).symm.trans hlead)

omit [DecidableEq ι] in
theorem SameVotes.of_log {log : RaftLog ι} (h : n.log.Extends log) :
    SameVotes V voted n { n with log := log } ds :=
  ⟨rfl, rfl, h, .inl rfl, .inl rfl, fun _ hd => .inl hd, fun _ hmsg => .inl hmsg⟩

omit [DecidableEq ι] in
theorem SameVotes.refl : SameVotes V voted n n ds :=
  .of_log (.refl _)

omit [DecidableEq ι] in
theorem SameVotes.of_core {c : Core ι} (hcore : n'.toCore = c)
    (h : SameVotes V voted n { n with toCore := c } ds) : SameVotes V voted n n' ds := by
  subst hcore
  exact { h with }

omit [DecidableEq ι] in
theorem SameVotes.of_send (msgs : List (Msg ι)) (h : ∀ msg ∈ msgs, msg.Vouched V voted n.cfg.id) :
    SameVotes V voted n (n.sendAll msgs) ds :=
  { SameVotes.refl with out := fun msg hmsg => (List.mem_append.mp hmsg).imp_right (h msg) }

omit [DecidableEq ι] in
theorem SameVotes.of_answers {seq : Nat} {work : Deferred ι} (h : n.Answers seq work n')
    (hsent : ∀ msg ∈ work.answer n.cfg.id, msg.Vouched V voted n.cfg.id)
    (hheld : work.Vouched V voted n.cfg.id (Pending voted n.cfg.id n.log.w ds seq)) :
    SameVotes V voted n n' ds := by
  have hcore := h.core
  refine ⟨(congrArg Core.cfg hcore :), h.hardState, by rw [h.log]; exact .refl _,
    .inl (congrArg Core.state hcore :), .inl (congrArg Core.receivedVoteSet hcore :), ?_, ?_⟩
  · intro d hd
    rcases h.sent with ⟨-, -, hdef⟩ | ⟨-, -, hdef⟩ <;> rw [hdef] at hd
    · exact .inl hd
    · refine (List.mem_append.mp hd).imp_right fun hd => ?_
      obtain rfl := List.mem_singleton.mp hd
      rw [h.log]
      exact hheld
  · intro msg hmsg
    rcases h.sent with ⟨-, hout, -⟩ | ⟨-, hout, -⟩ <;> rw [hout] at hmsg
    · exact (List.mem_append.mp hmsg).imp_right (hsent msg)
    · exact .inl hmsg

end SameVotes

end Node

end Raft
