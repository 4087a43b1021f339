import Raft.Reads.Lessor
import Raft.System.Basic
import Raft.Turn.Frames

/-!
# What a lease rests on

A lease counts from when the barriers of its round were sent: a voter that accepted one of
them has started its election timer since.  Two things undermine this.  The barriers are
sent once more with every heartbeat, and the lease counts from the last sending, though the
answers to the earlier ones still count.  And a node that is told to take over stands at
once, but the lease of the leader that told it so stays as it is.
-/

namespace Raft

variable {ι : Type} [DecidableEq ι] {acks : List ι}

/-! ## Quorums -/

namespace Membership

variable {m : Membership ι} {acks acks' : List ι}

theorem hasQuorumAck_mono (h : ∀ p ∈ acks, p ∈ acks') {kind : QuorumKind}
    {members : List (PeerConfig ι)} {includeSelf selfVoter : Bool}
    (hack : m.hasQuorumAck kind acks members includeSelf selfVoter = true) :
    m.hasQuorumAck kind acks' members includeSelf selfVoter = true := by
  simp only [hasQuorumAck, decide_eq_true_eq] at hack ⊢
  refine hack.trans (Nat.add_le_add_left (List.countP_mono_left fun p _ hp => ?_) _)
  rw [Bool.and_eq_true, List.contains_iff_mem] at hp ⊢
  exact ⟨hp.1, h p.id hp.2⟩

theorem acked_mono (h : ∀ p ∈ acks, p ∈ acks') {kind : QuorumKind}
    (hack : m.acked kind acks = true) : m.acked kind acks' = true := by
  unfold acked at hack ⊢
  split at hack
  · exact hasQuorumAck_mono h hack
  · rw [Bool.and_eq_true] at hack ⊢
    exact ⟨hasQuorumAck_mono h hack.1, hasQuorumAck_mono h hack.2⟩

end Membership

/-! ## The barriers behind a lease -/

namespace Grant

/-- The peers that have accepted, in the term of the lease, a barrier sent no earlier than what it
counts from. -/
def late (g : Grant ι) : List ι :=
  (g.accepted.filter fun b => b.term = g.term ∧ b.sentAt.before g.base = false).map (·.peer)

/-- Such peers, with the leader, are a commit quorum. -/
def Sound (g : Grant ι) : Prop := g.membership.acked .commitQuorum g.late = true
  deriving Decidable

theorem sound_of_acks {g : Grant ι} (hquorum : g.membership.acked .commitQuorum acks = true)
    (hacks : ∀ p ∈ acks, ∃ b ∈ g.accepted, b.peer = p ∧ b.term = g.term ∧
      b.sentAt.before g.base = false) : g.Sound := by
  refine Membership.acked_mono (fun p hp => ?_) hquorum
  obtain ⟨b, hb, rfl, hterm, hsent⟩ := hacks p hp
  exact List.mem_map_of_mem (List.mem_filter.mpr ⟨hb, by simp [hterm, hsent]⟩)

end Grant

namespace Lessor

variable {clock : Nat → Time} {l : Lessor ι} {gen term : Nat} {peer : ι}

/-- If the node takes itself for the only voter, it is a commit quorum. -/
def Alone (l : Lessor ι) : Prop :=
  l.membership.isSingleVoter = true → l.membership.acked .commitQuorum [] = true
  deriving Decidable

/-- The first entry of the term is committed, and reads have been waiting for it. -/
def TakesUp (l : Lessor ι) (advances : Option Nat) : Prop :=
  advances.isSome = true ∧ l.state = .leader ∧ l.leaderNopCommitted = false ∧ l.pendingReads ≠ []
  deriving Decidable

/-- The answer is the one that confirms the round, and a round is started for the reads behind it. -/
def GoesOn (l : Lessor ι) (peer : ι) : Prop :=
  l.membership.acked .commitQuorum (peer :: l.readBatchAcks.getD []) = true ∧ l.waitingReads ≠ []
  deriving Decidable

/-- An answer that counts is one to the last sending, which is the last until then; and where a round
is started by the only voter, it is a commit quorum. -/
def Timely (l : Lessor ι) : Event ι → Prop
  | .answer k advances _ => (l.TakesUp advances → l.Alone) ∧
      ∀ b ∈ l.answered k, l.state = .leader → l.Counts b.gen b.term →
        l.leaseSendTime.isZero = false ∧ b.sentAt.before l.leaseSendTime = false ∧
          (l.GoesOn b.peer → l.Alone)
  | .progress _ _ advances _ => l.TakesUp advances → l.Alone
  | .advance idx => l.TakesUp (some idx) → l.Alone
  | .becomeLeader advances => advances.isSome = true → l.pendingReads ≠ [] → l.Alone
  | .heartbeat => l.state = .leader → l.leaderNopCommitted = true → l.pendingReads ≠ [] →
      l.readBatchAcks.getD [] = []
  | _ => True

instance (l : Lessor ι) (e : Event ι) : Decidable (l.Timely e) := by
  cases e <;> unfold Timely <;> infer_instance

theorem answered_spec {k : Nat} {b : Barrier ι} (h : l.answered k = some b) :
    b ∈ l.sent ∧ b ∈ l.accepted := by
  obtain ⟨hsent, hacc⟩ := Option.filter_eq_some_iff.mp h
  exact ⟨List.mem_of_getElem? hsent, of_decide_eq_true hacc⟩

def HandsOver (l : Lessor ι) (target : ι) (caughtUp : Bool) : Prop :=
  l.state = .leader ∧ l.transferTarget = none ∧
    (l.membership.peers.find? (·.id = target)).any (fun p => p.voter && !p.witness) = true ∧
    caughtUp = true
  deriving Decidable

theorem handleLeadershipTransfer_cases (l : Lessor ι) (target : ι) (caughtUp : Bool) :
    (l.HandsOver target caughtUp ∧
        l.handleLeadershipTransfer target caughtUp = { l.sendTimeoutNow with transferTarget := none }) ∨
      ∃ t, l.handleLeadershipTransfer target caughtUp = { l with transferTarget := t } := by
  unfold handleLeadershipTransfer HandsOver
  by_cases hbusy : l.state ≠ .leader ∨ l.transferTarget.isSome
  · rw [if_pos hbusy]
    exact .inr ⟨l.transferTarget, rfl⟩
  · rw [if_neg hbusy]
    cases l.membership.peers.find? (·.id = target) with
    | none => exact .inr ⟨l.transferTarget, rfl⟩
    | some peer =>
      dsimp only
      split_ifs with hvoter hup
      · exact .inr ⟨l.transferTarget, rfl⟩
      · refine .inl ⟨?_, rfl⟩
        simp_all
      · exact .inr ⟨some target, rfl⟩

section Frames

omit [DecidableEq ι]

theorem startReadBatch_frame (clock : Nat → Time) (l : Lessor ι) :
    l.readBatchGen < (l.startReadBatch clock).readBatchGen ∧
      (l.startReadBatch clock).membership = l.membership ∧
      (l.startReadBatch clock).accepted = l.accepted := by
  unfold startReadBatch
  dsimp only
  split_ifs
  · exact ⟨Nat.lt_succ_self _, rfl, rfl⟩
  · exact ⟨Nat.lt_succ_of_lt (Nat.lt_succ_self _), rfl, rfl⟩
  · exact ⟨Nat.lt_succ_self _, rfl, rfl⟩

theorem advanceCommit_cases (clock : Nat → Time) (l : Lessor ι) (advances : Option Nat) :
    (∃ idx nop, (nop = true → l.leaderNopCommitted = true ∨ l.pendingReads = []) ∧
        l.advanceCommit clock advances = { l with commitIndex := idx, leaderNopCommitted := nop }) ∨
      l.TakesUp advances ∧ ∃ idx, l.advanceCommit clock advances =
        startReadBatch clock { l with commitIndex := idx, leaderNopCommitted := true } := by
  cases advances with
  | none => exact .inl ⟨l.commitIndex, l.leaderNopCommitted, .inl, rfl⟩
  | some idx =>
    unfold advanceCommit
    dsimp only
    split_ifs with hlead hnop hpending
    · exact .inl ⟨l.commitIndex, l.leaderNopCommitted, .inl, rfl⟩
    · exact .inl ⟨_, l.leaderNopCommitted, .inl, rfl⟩
    · exact .inl ⟨_, true, fun _ => .inr (List.isEmpty_iff.mp hpending), rfl⟩
    · exact .inr ⟨⟨rfl, not_not.mp hlead, by simpa using hnop, by simpa using hpending⟩, _, rfl⟩

theorem advanceCommit_frame (clock : Nat → Time) (l : Lessor ι) (advances : Option Nat) :
    (l.advanceCommit clock advances).membership = l.membership ∧
      (l.advanceCommit clock advances).accepted = l.accepted ∧
      ∀ gen term, gen ≤ l.readBatchGen → (l.advanceCommit clock advances).Counts gen term →
        l.Counts gen term ∧ (l.advanceCommit clock advances).leaseSendTime = l.leaseSendTime ∧
          (l.advanceCommit clock advances).readBatchAcks = l.readBatchAcks ∧
          (l.advanceCommit clock advances).waitingReads = l.waitingReads := by
  rcases advanceCommit_cases clock l advances with ⟨idx, nop, -, heq⟩ | ⟨-, idx, heq⟩ <;> rw [heq]
  · exact ⟨rfl, rfl, fun _ _ _ hcounts => ⟨hcounts, rfl, rfl, rfl⟩⟩
  · obtain ⟨hlt, hmem, hacc⟩ := startReadBatch_frame clock
      { l with commitIndex := idx, leaderNopCommitted := true }
    refine ⟨hmem, hacc, fun gen term hle hcounts => absurd hlt (Nat.not_lt.mpr ?_)⟩
    exact hcounts.2.1 ▸ hle

end Frames

/-! ## What a lease counts from -/

/-- What is known of the barriers and the leases in any round. -/
structure Ledger (l : Lessor ι) : Prop where
  gen_le : ∀ b ∈ l.sent, b.gen ≤ l.readBatchGen
  accepted_sent : ∀ b ∈ l.accepted, b ∈ l.sent
  sound : ∀ g ∈ l.grants, g.Sound

/-- A peer that was counted has accepted a barrier no older than the last sending. -/
structure Honest (l : Lessor ι) : Prop extends Ledger l where
  acks : ∀ p ∈ l.readBatchAcks.getD [], ∃ b ∈ l.accepted, b.peer = p ∧ b.gen = l.readBatchGen ∧
    b.sentAt.before l.leaseSendTime = false
  round : ∃ t, (∀ b ∈ l.sent, b.gen = l.readBatchGen → b.term = t) ∧
    (l.state = .leader → l.leaderNopCommitted = true → l.pendingReads ≠ [] → t = l.currentTerm)

structure Vouched (l : Lessor ι) (peer : ι) (gen term : Nat) : Prop where
  known : l.leaseSendTime.isZero = false
  accepted : ∃ b ∈ l.accepted, b.peer = peer ∧ b.gen = gen ∧ b.term = term ∧
    b.sentAt.before l.leaseSendTime = false
  alone : l.GoesOn peer → l.Alone

namespace Ledger

theorem openReadBatch (h : l.Ledger) : l.openReadBatch.Honest where
  gen_le b hb := (h.gen_le b hb).trans (Nat.le_succ _)
  accepted_sent := h.accepted_sent
  sound := h.sound
  acks := nofun
  round := by
    -- No barrier of the new round has been sent.
    refine ⟨l.currentTerm, fun b hb hgen => ?_, fun _ _ _ => rfl⟩
    exact absurd (h.gen_le b hb) (hgen ▸ Nat.not_succ_le_self _)

theorem promoteWaitingReads (h : l.Ledger) : l.promoteWaitingReads.Ledger :=
  { h with }

end Ledger

namespace Honest

theorem confirm (h : l.Honest) (hquorum : l.membership.acked .commitQuorum acks = true)
    (hacks : ∀ p ∈ acks, l.leaseSendTime.isZero = false ∧ ∃ b ∈ l.accepted, b.peer = p ∧
      b.term = l.currentTerm ∧ b.sentAt.before l.leaseSendTime = false) :
    (l.grantLease clock).resolveReadBatch.Honest where
  gen_le := h.gen_le
  accepted_sent := h.accepted_sent
  sound := by
    refine List.forall_mem_append.mpr ⟨h.sound, List.forall_mem_singleton.mpr ?_⟩
    refine Grant.sound_of_acks hquorum fun p hp => ?_
    obtain ⟨hknown, b, hb, hpeer, hterm, hsent⟩ := hacks p hp
    refine ⟨b, hb, hpeer, hterm, ?_⟩
    rwa [if_neg (by simp [hknown])]
  acks := nofun
  round := by
    obtain ⟨t, ht, -⟩ := h.round
    exact ⟨t, ht, fun _ _ hpending => absurd rfl hpending⟩

theorem broadcastReadBarrier (h : l.Honest) (hacks : l.readBatchAcks.getD [] = [])
    (hterm : ∀ b ∈ l.sent, b.gen = l.readBatchGen → b.term = l.currentTerm) :
    (l.broadcastReadBarrier clock).Honest where
  gen_le := List.forall_mem_append.mpr ⟨h.gen_le, List.forall_mem_map.mpr fun _ _ => le_rfl⟩
  accepted_sent b hb := List.mem_append_left _ (h.accepted_sent b hb)
  sound := h.sound
  acks p hp := by
    rw [show (l.broadcastReadBarrier clock).readBatchAcks.getD [] = [] from hacks] at hp
    cases hp
  round := ⟨l.currentTerm, List.forall_mem_append.mpr ⟨hterm, List.forall_mem_map.mpr fun _ _ _ => rfl⟩,
    fun _ _ _ => rfl⟩

end Honest

namespace Ledger

theorem startReadBatch (h : l.Ledger) (halone : l.Alone) : (l.startReadBatch clock).Honest := by
  have hopen := h.openReadBatch
  unfold Lessor.startReadBatch
  dsimp only
  split_ifs with hsingle hwaiting
  · exact hopen.confirm (halone hsingle) nofun
  · exact (hopen.confirm (halone hsingle) nofun).toLedger.promoteWaitingReads.openReadBatch.confirm
      (halone hsingle) nofun
  · refine hopen.broadcastReadBarrier rfl fun b hb hgen => ?_
    exact absurd (h.gen_le b hb) (hgen ▸ Nat.not_succ_le_self _)

end Ledger

namespace Honest

section

variable (h : l.Honest)

include h

theorem confirmReadBatch (halone : l.waitingReads ≠ [] → l.Alone)
    (hquorum : l.membership.acked .commitQuorum acks = true)
    (hacks : ∀ p ∈ acks, l.leaseSendTime.isZero = false ∧ ∃ b ∈ l.accepted, b.peer = p ∧
      b.term = l.currentTerm ∧ b.sentAt.before l.leaseSendTime = false) :
    (l.confirmReadBatch clock).Honest := by
  have hconf : ((l.grantLease clock).resolveReadBatch).Honest := h.confirm hquorum hacks
  unfold Lessor.confirmReadBatch
  dsimp only
  split_ifs with hwaiting
  · exact hconf
  · exact hconf.toLedger.promoteWaitingReads.startReadBatch (halone fun hnil => hwaiting (List.isEmpty_iff.mpr hnil))

theorem countReadAck (hvouched : l.Counts gen term → l.Vouched peer gen term) :
    (l.countReadAck clock peer gen term).Honest := by
  unfold Lessor.countReadAck
  split_ifs with hcounts
  · obtain ⟨hknown, ⟨b, hb, rfl, rfl, rfl, hsent⟩, halone⟩ := hvouched hcounts
    obtain ⟨-, hgen, hterm⟩ := hcounts
    have hacks : ∀ p ∈ b.peer :: l.readBatchAcks.getD [], ∃ c ∈ l.accepted, c.peer = p ∧
        c.gen = l.readBatchGen ∧ c.sentAt.before l.leaseSendTime = false := by
      intro p hp
      rcases List.mem_cons.mp hp with rfl | hp
      · exact ⟨b, hb, rfl, hgen, hsent⟩
      · exact h.acks p hp
    have hround : ∀ c ∈ l.sent, c.gen = l.readBatchGen → c.term = l.currentTerm := by
      obtain ⟨t, ht, -⟩ := h.round
      intro c hc hcgen
      rw [ht c hc hcgen, ← ht b (h.accepted_sent b hb) hgen, hterm]
    have hcounted : Honest { l with readBatchAcks := some (b.peer :: l.readBatchAcks.getD []) } :=
      { h with acks := hacks }
    dsimp only
    split_ifs with hquorum
    · refine hcounted.confirmReadBatch (fun hwaiting => halone ⟨hquorum, hwaiting⟩) hquorum
        fun p hp => ⟨hknown, ?_⟩
      obtain ⟨c, hc, hpeer, hcgen, hcsent⟩ := hacks p hp
      exact ⟨c, hc, hpeer, hround c (h.accepted_sent c hc) hcgen, hcsent⟩
    · exact hcounted
  · exact h

theorem readFromLease (read : Nat) : (l.readFromLease clock read).Honest := by
  unfold Lessor.readFromLease leaseValid
  dsimp only
  split_ifs <;> exact { h with }

theorem handleReadIndex (read : Nat) (useLease : Bool) :
    (l.handleReadIndex clock read useLease).Honest := by
  unfold Lessor.handleReadIndex
  split_ifs with hlead hnop _ hsingle
  · exact { h with }
  · exact { h with }
  · -- The read is kept until the first entry of the term is committed.
    obtain ⟨t, ht, -⟩ := h.round
    refine { h with round := ⟨t, ht, fun _ hyes => ?_⟩ }
    simp_all
  · exact { h with }
  · exact h.readFromLease read
  · exact { h with }
  · exact Ledger.startReadBatch { h with } fun honly => absurd honly hsingle

theorem advanceCommit {advances : Option Nat} (halone : l.TakesUp advances → l.Alone) :
    (l.advanceCommit clock advances).Honest := by
  rcases advanceCommit_cases clock l advances with ⟨idx, nop, hnop, heq⟩ | ⟨htakes, idx, heq⟩ <;> rw [heq]
  · obtain ⟨t, ht, hcurrent⟩ := h.round
    refine { h with round := ⟨t, ht, fun hlead hyes hpending => ?_⟩ }
    exact hcurrent hlead ((hnop hyes).resolve_right hpending) hpending
  · exact Ledger.startReadBatch { h with } (halone htakes)

theorem tickHeartbeat (htimely : l.state = .leader → l.leaderNopCommitted = true →
    l.pendingReads ≠ [] → l.readBatchAcks.getD [] = []) : (l.tickHeartbeat clock).Honest := by
  unfold Lessor.tickHeartbeat
  split_ifs with hagain
  · obtain ⟨hlead, hnop, hpending⟩ := hagain
    obtain ⟨t, ht, hcurrent⟩ := h.round
    rw [hcurrent hlead hnop hpending] at ht
    exact h.broadcastReadBarrier (htimely hlead hnop hpending) ht
  · exact h

theorem maybeFinishTransfer (peer : ι) (caughtUp : Bool) :
    (l.maybeFinishTransfer peer caughtUp).Honest := by
  unfold Lessor.maybeFinishTransfer
  split_ifs
  · exact { h with }
  · exact h

theorem handleLeadershipTransfer (target : ι) (caughtUp : Bool) :
    (l.handleLeadershipTransfer target caughtUp).Honest := by
  rcases handleLeadershipTransfer_cases l target caughtUp with ⟨-, heq⟩ | ⟨t, heq⟩ <;> rw [heq] <;>
    exact { h with }

theorem becomeFollower (term : Nat) : (l.becomeFollower term).Honest := by
  obtain ⟨t, ht, -⟩ := h.round
  exact { h with acks := nofun, round := ⟨t, ht, nofun⟩ }

theorem handleAppendResult {advances : Option Nat} (halone : l.TakesUp advances → l.Alone)
    (hgen : gen ≤ l.readBatchGen)
    (hvouched : l.state = .leader → l.Counts gen term → l.Vouched peer gen term) (caughtUp : Bool) :
    (l.handleAppendResult clock peer gen term advances caughtUp).Honest := by
  unfold Lessor.handleAppendResult
  split_ifs with hterm hlead
  · exact h.becomeFollower term
  · exact h
  · obtain ⟨hmem, hacc, hcounted⟩ := advanceCommit_frame clock l advances
    have hadvanced : (l.advanceCommit clock advances).Honest := h.advanceCommit halone
    generalize l.advanceCommit clock advances = l₁ at *
    have hvouched₁ : l₁.Counts gen term → l₁.Vouched peer gen term := by
      intro hcounts
      obtain ⟨hbefore, htime, hacks, hwaiting⟩ := hcounted gen term hgen hcounts
      obtain ⟨hknown, haccepted, halone⟩ := hvouched (not_not.mp hlead) hbefore
      unfold GoesOn Alone at halone
      rw [← hmem, ← hacks, ← hwaiting] at halone
      rw [← htime] at hknown
      rw [← hacc, ← htime] at haccepted
      exact ⟨hknown, haccepted, halone⟩
    have hfinished := hadvanced.maybeFinishTransfer peer caughtUp
    unfold Lessor.maybeFinishTransfer at hfinished ⊢
    split_ifs at hfinished ⊢
    · refine hfinished.countReadAck fun hcounts => ?_
      obtain ⟨hknown, haccepted, halone⟩ := hvouched₁ hcounts
      exact ⟨hknown, haccepted, halone⟩
    · exact hadvanced.countReadAck hvouched₁

theorem step {e : Event ι} (he : l.Timely e) : (l.step clock e).Honest := by
  cases e with
  | read read useLease => exact h.handleReadIndex read useLease
  | accept k =>
    refine { h with accepted_sent := List.forall_mem_append.mpr ⟨h.accepted_sent, fun b hb => ?_⟩
                    acks := fun p hp => ?_ }
    · exact List.mem_of_getElem? (Option.mem_toList.mp hb)
    · obtain ⟨b, hb, hpeer⟩ := h.acks p hp
      exact ⟨b, List.mem_append_left _ hb, hpeer⟩
  | answer k advances caughtUp =>
    unfold Lessor.step
    dsimp only
    cases hans : l.answered k with
    | none => exact h
    | some b =>
      obtain ⟨hsent, hacc⟩ := answered_spec hans
      refine h.handleAppendResult he.1 (h.gen_le b hsent) (fun hlead hcounts => ?_) ..
      obtain ⟨hknown, hlate, halone⟩ := he.2 b hans hlead hcounts
      exact ⟨hknown, ⟨b, hacc, rfl, rfl, rfl, hlate⟩, halone⟩
  | progress peer term advances caughtUp =>
    exact h.handleAppendResult he (Nat.zero_le _) (fun _ hcounts => absurd rfl hcounts.1) ..
  | advance idx => exact h.advanceCommit he
  | heartbeat => exact h.tickHeartbeat he
  | transfer target caughtUp => exact h.handleLeadershipTransfer target caughtUp
  | transferTimeout => exact { h with }
  | becomeFollower term => exact h.becomeFollower term
  | becomePreCandidate | becomeCandidate =>
    obtain ⟨t, ht, -⟩ := h.round
    exact { h with round := ⟨t, ht, nofun⟩ }
  | becomeLeader advances =>
    unfold Lessor.step Lessor.becomeLeader
    split_ifs with hcand
    · exact h
    · obtain ⟨t, ht, -⟩ := h.round
      have hled : Honest { l with state := .leader, leaderNopCommitted := false } :=
        { h with round := ⟨t, ht, nofun⟩ }
      exact hled.advanceCommit fun htakes => he htakes.1 htakes.2.2.2
  | reconfigure m => exact { h with }

end

theorem new (m : Membership ι) (term : Nat) (electionTimeoutMin leaseSafetyMargin : Int) :
    (Lessor.new m term electionTimeoutMin leaseSafetyMargin).Honest where
  gen_le _ hb := by cases hb
  accepted_sent _ hb := by cases hb
  sound _ hg := by cases hg
  acks := nofun
  round := ⟨0, fun _ hb => (by cases hb), fun hlead => (by cases hlead)⟩

end Honest

/-- **A lease counts from no later than a commit quorum's barriers were sent** in timely runs. -/
theorem lease_base_sound (clock : Nat → Time) (m : Membership ι) (term : Nat)
    (electionTimeoutMin leaseSafetyMargin : Int) (es : List (Event ι))
    (h : Along clock Timely (new m term electionTimeoutMin leaseSafetyMargin) es) :
    ∀ g ∈ ((new m term electionTimeoutMin leaseSafetyMargin).run clock es).grants, g.Sound :=
  (h.invariant (I := Honest) (fun hl he => hl.step he) (Honest.new m term _ _)).sound

def trio : Membership (Fin 3) := (Node.start (Config.ofSize 3 0) .empty).membership

def ticking (i : Nat) : Time := ⟨10 * (i + 1), some (10 * (i + 1))⟩

def resends (k : Nat) : List (Event (Fin 3)) :=
  [.becomeCandidate, .becomeLeader none, .advance 1, .read 0 false, .heartbeat, .accept k,
    .answer k none false]

/-- The answer to a barrier of the second sending, which was sent when the lease counts from. -/
theorem lease_base_sound_resent :
    ((new trio 0 150 0).run ticking (resends 2)).grants.map (·.base) = [ticking 1] ∧
      ∀ g ∈ ((new trio 0 150 0).run ticking (resends 2)).grants, g.Sound :=
  ⟨by decide +kernel, lease_base_sound ticking trio 0 150 0 (resends 2) (by decide +kernel)⟩

/-- **A lease can count from a moment at which no peer had been asked yet that has answered**:
the accepted barrier is of the first sending, the lease counts from the second. -/
theorem lease_base_late :
    ((new trio 0 150 0).run ticking (resends 0)).accepted.map (·.sentAt) = [ticking 0] ∧
      ∃ g ∈ ((new trio 0 150 0).run ticking (resends 0)).grants, g.base = ticking 1 ∧ ¬ g.Sound := by
  decide +kernel

/-! ## Handing over -/

def RunOut (clock : Nat → Time) (l : Lessor ι) : Prop :=
  l.leaseExpiry.isZero = true ∨ ∀ i, l.readings ≤ i → (clock i).before l.leaseExpiry = false

/-- It hands over only when the lease has run out, and counts only towards a round begun
since. -/
def TakenUpWithCare (clock : Nat → Time) (l : Lessor ι) (peer : ι) (gen term : Nat)
    (advances : Option Nat) (caughtUp : Bool) : Prop :=
  let l₁ := l.advanceCommit clock advances
  let l₂ := l₁.maybeFinishTransfer peer caughtUp
  (l₁.FinishesTransfer peer caughtUp → l₁.RunOut clock) ∧
    (l₂.Counts gen term → ∀ g, l₂.handover = some g → g < l₂.readBatchGen)

/-- Leadership is handed over only when the lease has run out. -/
def Careful (clock : Nat → Time) (l : Lessor ι) : Event ι → Prop
  | .transfer target caughtUp => l.HandsOver target caughtUp → l.RunOut clock
  | .answer k advances caughtUp => ∀ b ∈ l.answered k, l.state = .leader →
      l.TakenUpWithCare clock b.peer b.gen b.term advances caughtUp
  | .progress peer term advances caughtUp => l.state = .leader →
      l.TakenUpWithCare clock peer 0 term advances caughtUp
  | _ => True

/-- Since leadership was handed over in round `g`, the lease was set in a later round or has run
out. -/
structure Discreet (clock : Nat → Time) (l : Lessor ι) : Prop where
  gen_le : ∀ g, l.handover = some g → g ≤ l.readBatchGen
  lease : ∀ g, l.handover = some g → g < l.leaseGen ∨ l.RunOut clock
  reads : ∀ r ∈ l.leaseReads, ∀ g, r.handover = some g → g < r.leaseGen

namespace Discreet

section

omit [DecidableEq ι]

section

variable (h : l.Discreet clock)

include h

theorem congr {l' : Lessor ι} (hhand : l'.handover = l.handover)
    (hgen : l.readBatchGen ≤ l'.readBatchGen) (hlease : l'.leaseGen = l.leaseGen)
    (hexpiry : l'.leaseExpiry = l.leaseExpiry) (hclock : l.readings ≤ l'.readings)
    (hreads : l'.leaseReads = l.leaseReads) : l'.Discreet clock where
  gen_le g hg := (h.gen_le g (hhand ▸ hg)).trans hgen
  lease g hg := by
    rw [RunOut, hlease, hexpiry]
    refine (h.lease g (hhand ▸ hg)).imp_right (Or.imp_right fun hout i hi => ?_)
    exact hout i (hclock.trans hi)
  reads := by
    rw [hreads]
    exact h.reads

theorem grantLease (hgen : ∀ g, l.handover = some g → g < l.readBatchGen) :
    (l.grantLease clock).Discreet clock where
  gen_le := h.gen_le
  lease g hg := .inl (hgen g hg)
  reads := h.reads

theorem openReadBatch : l.openReadBatch.Discreet clock :=
  h.congr rfl (Nat.le_succ _) rfl rfl le_rfl rfl

theorem startReadBatch : (l.startReadBatch clock).Discreet clock := by
  -- A round that has just been begun is later than any handover.
  have hgrant : ∀ {l' : Lessor ι}, l'.Discreet clock →
      (l'.openReadBatch.grantLease clock).Discreet clock := fun h' =>
    h'.openReadBatch.grantLease fun g hg => Nat.lt_succ_of_le (h'.gen_le g hg)
  unfold Lessor.startReadBatch
  dsimp only
  split_ifs with hsingle hwaiting
  · exact { hgrant h with }
  · have hfirst : (l.openReadBatch.grantLease clock).resolveReadBatch.promoteWaitingReads.Discreet
        clock := { hgrant h with }
    exact { hgrant hfirst with }
  · exact h.openReadBatch.congr rfl le_rfl rfl rfl (Nat.le_succ _) rfl

theorem advanceCommit (advances : Option Nat) :
    (l.advanceCommit clock advances).Discreet clock := by
  rcases advanceCommit_cases clock l advances with ⟨idx, nop, -, heq⟩ | ⟨-, idx, heq⟩ <;> rw [heq]
  · exact { h with }
  · exact startReadBatch { h with }

theorem sendTimeoutNow (hout : l.RunOut clock) (target : Option ι) :
    Discreet clock { l.sendTimeoutNow with transferTarget := target } where
  gen_le _ hg := Option.some.inj hg ▸ le_rfl
  lease _ _ := .inr hout
  reads := h.reads

theorem readFromLease (read : Nat) : (l.readFromLease clock read).Discreet clock := by
  have hread : Discreet clock { l with readings := l.readings + 1 } :=
    h.congr rfl le_rfl rfl rfl (Nat.le_succ _) rfl
  unfold Lessor.readFromLease leaseValid
  dsimp only
  split_ifs with hover hjump
  · exact { hread with }
  · -- The lease is dropped.
    exact ⟨h.gen_le, fun _ _ => .inr (.inl rfl), h.reads⟩
  · refine ⟨h.gen_le, hread.lease, List.forall_mem_append.mpr
      ⟨h.reads, List.forall_mem_singleton.mpr fun g hg => (h.lease g hg).resolve_right ?_⟩⟩
    rintro (hzero | hlate)
    · simp [hzero] at hover
    · simp [hlate l.readings le_rfl] at hover

theorem handleReadIndex (read : Nat) (useLease : Bool) :
    (l.handleReadIndex clock read useLease).Discreet clock := by
  unfold Lessor.handleReadIndex
  split_ifs
  · exact { h with }
  · exact { h with }
  · exact { h with }
  · exact { h with }
  · exact h.readFromLease read
  · exact { h with }
  · exact startReadBatch { h with }

theorem becomeFollower (term : Nat) : (l.becomeFollower term).Discreet clock :=
  ⟨nofun, nofun, h.reads⟩

end

end

variable {peer : ι}

section

variable (h : l.Discreet clock)

include h

theorem countReadAck (hgen : l.Counts gen term → ∀ g, l.handover = some g → g < l.readBatchGen) :
    (l.countReadAck clock peer gen term).Discreet clock := by
  unfold Lessor.countReadAck
  split_ifs with hcounts
  · have hcounted : Discreet clock
        { l with readBatchAcks := some (peer :: l.readBatchAcks.getD []) } :=
      { h with }
    have hgranted := hcounted.grantLease (hgen hcounts)
    dsimp only
    split_ifs with hquorum
    · unfold Lessor.confirmReadBatch
      dsimp only
      split_ifs
      · exact { hgranted with }
      · exact startReadBatch { hgranted with }
    · exact hcounted
  · exact h

theorem maybeFinishTransfer {caughtUp : Bool}
    (hout : l.FinishesTransfer peer caughtUp → l.RunOut clock) :
    (l.maybeFinishTransfer peer caughtUp).Discreet clock := by
  unfold Lessor.maybeFinishTransfer
  split_ifs with hfin
  · exact h.sendTimeoutNow (hout hfin) none
  · exact h

theorem handleAppendResult {advances : Option Nat} {caughtUp : Bool}
    (hcare : l.state = .leader → l.TakenUpWithCare clock peer gen term advances caughtUp) :
    (l.handleAppendResult clock peer gen term advances caughtUp).Discreet clock := by
  unfold Lessor.handleAppendResult
  split_ifs with hterm hlead
  · exact h.becomeFollower term
  · exact h
  · obtain ⟨hout, hgen⟩ := hcare (not_not.mp hlead)
    exact ((h.advanceCommit advances).maybeFinishTransfer hout).countReadAck hgen

theorem step {e : Event ι} (he : l.Careful clock e) : (l.step clock e).Discreet clock := by
  cases e with
  | read read useLease => exact h.handleReadIndex read useLease
  | answer k advances caughtUp =>
    unfold Lessor.step
    dsimp only
    cases hans : l.answered k with
    | none => exact h
    | some b => exact h.handleAppendResult (he b hans)
  | progress peer term advances caughtUp => exact h.handleAppendResult he
  | advance idx => exact h.advanceCommit (some idx)
  | heartbeat =>
    unfold Lessor.step tickHeartbeat
    split_ifs
    · exact h.congr rfl le_rfl rfl rfl (Nat.le_succ _) rfl
    · exact h
  | transfer target caughtUp =>
    unfold Lessor.step
    dsimp only
    rcases handleLeadershipTransfer_cases l target caughtUp with ⟨hover, heq⟩ | ⟨t, heq⟩ <;> rw [heq]
    · exact h.sendTimeoutNow (he hover) none
    · exact { h with }
  | becomeFollower term => exact h.becomeFollower term
  | becomeLeader advances =>
    unfold Lessor.step Lessor.becomeLeader
    split_ifs with hcand
    · exact h
    · have hled : Discreet clock { l with state := .leader, leaderNopCommitted := false } :=
        { h with }
      exact hled.advanceCommit advances
  | accept k | transferTimeout | becomePreCandidate | becomeCandidate | reconfigure m =>
    exact { h with }

end

end Discreet

/-- **No read is answered from a lease once leadership was handed over**, unless it was set
anew since, in a run in which it is handed over only when the lease has run out. -/
theorem no_lease_read_after_handover (clock : Nat → Time) (m : Membership ι) (term : Nat)
    (electionTimeoutMin leaseSafetyMargin : Int) (es : List (Event ι))
    (h : Along clock (Careful clock) (new m term electionTimeoutMin leaseSafetyMargin) es) :
    ∀ r ∈ ((new m term electionTimeoutMin leaseSafetyMargin).run clock es).leaseReads,
      ∀ g, r.handover = some g → g < r.leaseGen :=
  (h.invariant (I := Discreet clock) (fun hl he => hl.step he)
    ⟨nofun, nofun, nofun⟩).reads

def handsOver : List (Event (Fin 3)) :=
  [.becomeCandidate, .becomeLeader none, .advance 1, .read 0 false, .accept 0, .answer 0 none false,
    .read 1 true, .transfer 1 true, .read 2 true]

theorem takenUpWithCare_of_behind {advances : Option Nat}
    (h : ∀ g ∈ (l.advanceCommit clock advances).handover,
      g < (l.advanceCommit clock advances).readBatchGen) :
    l.TakenUpWithCare clock peer gen term advances false := by
  refine ⟨fun hfin => absurd hfin.2 Bool.false_ne_true, ?_⟩
  rw [maybeFinishTransfer, if_neg fun hfin => Bool.false_ne_true hfin.2]
  exact fun _ => h

omit [DecidableEq ι] in
theorem runOut_ticking {t : Int} {k : Nat} (hexpiry : l.leaseExpiry = ⟨t, some t⟩)
    (hreadings : l.readings = k) (h : t ≤ 10 * (k + 1)) : l.RunOut ticking := by
  refine .inr fun i hi => ?_
  rw [hexpiry]
  simp only [Time.before, ticking, decide_eq_false_iff_not]
  omega

def renews : List (Event (Fin 3)) :=
  handsOver ++ [.read 3 false, .accept 2, .answer 2 none false, .read 4 true]

/-- The lease has run out by the time of the transfer: the next read is refused. -/
theorem no_lease_read_after_handover_renewed :
    ((new trio 0 15 0).run ticking renews).leaseReads = [⟨1, 1, none⟩, ⟨4, 2, some 1⟩] ∧
      ∀ r ∈ ((new trio 0 15 0).run ticking renews).leaseReads,
        ∀ g, r.handover = some g → g < r.leaseGen := by
  refine ⟨by decide +kernel, no_lease_read_after_handover ticking trio 0 15 0 renews ?_⟩
  refine ⟨trivial, trivial, trivial, trivial, trivial, ?_, trivial, ?_, trivial, trivial, trivial, ?_,
    trivial, trivial⟩
  · exact fun b _ _ => takenUpWithCare_of_behind (by decide +kernel)
  · exact fun _ => runOut_ticking (t := 25) (k := 2) (by decide +kernel) (by decide +kernel) (by decide)
  · exact fun b _ _ => takenUpWithCare_of_behind (by decide +kernel)

/-- **A read is answered from the lease after leadership was handed over.** -/
theorem lease_read_after_handover :
    ∃ r ∈ ((new trio 0 150 0).run ticking handsOver).leaseReads,
      ∃ g, r.handover = some g ∧ ¬ g < r.leaseGen :=
  ⟨⟨2, 1, some 1⟩, by decide +kernel, 1, rfl, by decide⟩

end Lessor

end Raft
