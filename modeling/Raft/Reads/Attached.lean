import Raft.System.Numbering

/-!
# Every queued read belongs to a round

A round of reads is in flight while a set of acknowledgements is kept for it, and the heartbeat
re-sends its barrier as long as `pendingReads` is not empty.

An acknowledgement names its round by a number, and the number of a round that is over stays
the current one until the next round starts.  An acknowledgement that comes late therefore
opens an empty set again.  `Msg.Late` says when it does.
-/

namespace Raft

variable {ι : Type}

namespace Node

variable {n m n' : Node ι}

/-- After the first commit of the term, a round is in flight exactly while there are reads it
is for, and while any read is queued the next heartbeat asks again. -/
structure ReadsAttached (n : Node ι) : Prop where
  flight : n.readBatchAcks.isSome = true ↔ n.pendingReads ≠ []
  waits : n.waitingReads ≠ [] → n.readBatchAcks.isSome = true
  resent : n.pendingReads ++ n.waitingReads ≠ [] → n.cfg.heartbeatTimeout ≤ n.heartbeatElapsed + 1 →
    ∀ peer ∈ n.membership.peers, n.readBarrier peer.id ∈ n.tickHeartbeat.out

theorem readBarrier_mem_tickHeartbeat (hopen : n.leaderNopCommitted = true)
    (hpending : n.pendingReads ≠ []) (hdue : n.cfg.heartbeatTimeout ≤ n.heartbeatElapsed + 1)
    {peer : PeerConfig ι} (hpeer : peer ∈ n.membership.peers) :
    n.readBarrier peer.id ∈ n.tickHeartbeat.out := by
  have hasks : (n.leaderNopCommitted && !n.pendingReads.isEmpty) = true := by
    simp [hopen, hpending]
  unfold tickHeartbeat
  rw [if_neg (by omega), broadcastHeartbeat_eq]
  refine (if_pos hasks : _ = _) ▸ ?_
  exact List.mem_append_right _ (List.mem_map_of_mem (List.mem_map_of_mem hpeer))

theorem Attached.readsAttached (h : n.Attached) (hopen : n.leaderNopCommitted = true) :
    n.ReadsAttached := by
  refine ⟨⟨h.round, h.asked hopen⟩, fun hwaiting => h.asked hopen (h.waits hwaiting), ?_⟩
  intro hqueued hdue peer hpeer
  have hpending : n.pendingReads ≠ [] := by
    intro hnil
    rw [hnil, List.nil_append] at hqueued
    exact h.waits hqueued hnil
  exact readBarrier_mem_tickHeartbeat hopen hpending hdue hpeer

end Node

def Input.NoAck : Input ι → Prop
  | .msg (.appendEntriesReply _ _ _ _) => False
  | _ => True

namespace Node

variable {n m n' : Node ι} {inp : Input ι} [DecidableEq ι] [Sized ι] {peer : ι}
  {req : AppendEntriesRequest ι} {resp : AppendEntriesResponse}

/-- **A move** over anything but an acknowledgement keeps the reads attached. -/
theorem Move.attached (h : Move inp n n') (hno : inp.NoAck) (hn : n.Attached) : n'.Attached := by
  cases h with
  | quiet _ hs => exact hn.congr (congrArg Shell.reads hs)
  | rounds _ hreads => exact hreads hn
  | demote leaderID => exact .idle rfl rfl rfl
  | grant _ _ _ _ _ _ _ _ h => exact hn.congr (congrArg Shell.reads h.shell :)
  | lead => exact ⟨hn.round, hn.waits, fun hopen => nomatch hopen⟩
  | accept src dst req _ _ hstate _ heq =>
    exact hn.congr (congrArg Shell.reads (acceptEntries_frame hstate heq).shell)
  | answer h => exact hn.congr (congrArg Shell.reads h.shell)
  | countAck acks peer dst req resp hinp => exact absurd hno (hinp ▸ not_false)
  | _ => exact hn

theorem Moves.attached (h : Moves inp n n') (hno : inp.NoAck) (hn : n.Attached) : n'.Attached :=
  h.invariant (fun _ _ hn hmove => hmove.attached hno hn) hn

theorem Stays.attached (h : Stays .timer n n') (hn : n.Attached) : n'.Attached :=
  h.moves.attached trivial hn

def takesAck (n : Node ι) (peer : ι) (req : AppendEntriesRequest ι) : Node ι :=
  (recordProgress { n with quorumAcks := peer :: n.quorumAcks } peer
    req).maybeAdvanceCommit.maybeFinishTransfer peer

/-- The node counts an acknowledgement although no round is in flight. -/
def CountsLate (n : Node ι) (peer : ι) (req : AppendEntriesRequest ι)
    (resp : AppendEntriesResponse) : Prop :=
  req.readBarrier ≠ 0 ∧ req.readBarrier = n.readBatchGen ∧ resp.term = n.currentTerm ∧
    n.readBatchAcks = none ∧ n.membership.acked .commitQuorum [peer] = false
  deriving Decidable

theorem takesAck_attached (h : n.Attached) (peer : ι) (req : AppendEntriesRequest ι) :
    (n.takesAck peer req).Attached := by
  have hrecord : (recordProgress { n with quorumAcks := peer :: n.quorumAcks } peer req).Attached := by
    unfold recordProgress
    split <;> exact h
  exact ((maybeAdvanceCommit_stays _).trans (maybeFinishTransfer_stays _ peer)).attached hrecord

omit [Sized ι] in
theorem countReadAck_attached (h : n.Attached) (hlate : ¬ n.CountsLate peer req resp) :
    (n.countReadAck peer req resp).Attached := by
  unfold countReadAck
  by_cases hcounts : req.readBarrier ≠ 0 ∧ req.readBarrier = n.readBatchGen ∧
      resp.term = n.currentTerm
  · dsimp only
    split_ifs with hquorum
    · exact confirmReadBatch_attached _
    · -- the round goes on, so it must have been in flight
      have hflight : n.readBatchAcks.isSome = true := by
        cases hacks : n.readBatchAcks with
        | some acks => rfl
        | none =>
          rw [hacks, Option.getD_none, Bool.not_eq_true] at hquorum
          exact absurd ⟨hcounts.1, hcounts.2.1, hcounts.2.2, hacks, hquorum⟩ hlate
      exact .asking rfl (h.round hflight)
  · rw [if_neg hcounts]
    exact h

theorem continue_reads (n : Node ι) (peer : ι) (p : Prop) [Decidable p] :
    (if p then n.replicateToPeer peer else n).reads = n.reads := by
  have hsnap : (n.sendSnapshotToPeer peer).reads = n.reads := by
    unfold sendSnapshotToPeer
    split
    · split_ifs <;> rfl
    · rfl
  unfold replicateToPeer
  dsimp only
  split_ifs
  · rfl
  · exact hsnap
  · rfl
  · split <;> rfl
  · rfl

theorem handleSuccess_attached (h : n.Attached)
    (hlate : ¬ (n.takesAck peer req).CountsLate peer req resp) :
    (n.handleSuccess peer req resp).Attached :=
  (countReadAck_attached (takesAck_attached h peer req) hlate).congr (continue_reads _ peer _)

theorem departingPeer_reads (n : Node ι) (peer : ι) (req : AppendEntriesRequest ι)
    (h : n.departingPeer peer req = some m) : m.reads = n.reads := by
  obtain ⟨d, -, rfl⟩ := Option.map_eq_some_iff.mp h
  split_ifs
  · rfl
  · refine (continue_reads _ peer _).trans ?_
    split
    · split_ifs <;> rfl
    · rfl

def TakesAck (n : Node ι) (peer : ι) (req : AppendEntriesRequest ι)
    (resp : AppendEntriesResponse) : Prop :=
  n.state = .leader ∧ resp.success = true ∧ n.departingPeer peer req = none
  deriving Decidable

theorem handleAppendResult_attached (h : n.Attached)
    (hlate : ∀ m, m = (n.releaseInflight peer).markPeerUp peer → m.TakesAck peer req resp →
      ¬ (m.takesAck peer req).CountsLate peer req resp) :
    (n.handleAppendResult peer req resp).Attached := by
  have hup : ((n.releaseInflight peer).markPeerUp peer).Attached := h.congr rfl
  have hlate' := hlate _ rfl
  unfold handleAppendResult
  generalize (n.releaseInflight peer).markPeerUp peer = m at hup hlate' ⊢
  dsimp only
  split_ifs with hterm hstate hfail
  · have hfollow : Moves .timer m _ := becomeFollower_moves m resp.term none
    exact hfollow.attached trivial hup
  · exact hup
  · unfold handleRejection
    split_ifs
    · exact hup
    · exact hup
    · exact (replicateToPeer_stays (n := { m with
        nextIndex := assign m.nextIndex peer (some (m.backtrackTo peer resp)) })
        (.inl (not_not.mp hstate)) peer).attached hup
  · cases hdep : m.departingPeer peer req with
    | some m' => exact hup.congr (departingPeer_reads m peer req hdep)
    | none =>
      exact handleSuccess_attached hup (hlate' ⟨not_not.mp hstate, by simpa using hfail, hdep⟩)

theorem new_attached {cfg : Config ι} {store : Store ι} {boot draws : Nat} {out : List (Msg ι)}
    {sm : List (LogEntry ι)} (h : Node.new cfg store boot draws out sm = some n) : n.Attached := by
  obtain ⟨log, -, -, -, rfl⟩ := new_cases h
  have hrecovered : (recovered cfg store log boot draws out sm).Attached := .idle rfl rfl rfl
  have hrebuilt := rebuildMembership_remains snapshot_reconfigures
    (recovered cfg store log boot draws out sm)
  exact hrebuilt.moves.attached trivial hrecovered

theorem start_attached (cfg : Config ι) (store : Store ι) : (start cfg store).Attached := by
  unfold start
  cases hnew : Node.new cfg store 0 0 [] [] with
  | some n => exact new_attached hnew
  | none => exact .idle rfl rfl rfl

end Node

variable [DecidableEq ι] [Sized ι]

/-- The message is an acknowledgement the node counts although the round it belongs to is over. -/
def Msg.Late (n : Node ι) : Msg ι → Prop
  | .appendEntriesReply src dst req resp =>
    n.boot = dst.boot ∧ ((n.releaseInflight src).markPeerUp src).TakesAck src req resp ∧
      (((n.releaseInflight src).markPeerUp src).takesAck src req).CountsLate src req resp
  | _ => False

instance (n : Node ι) (msg : Msg ι) : Decidable (msg.Late n) := by
  cases msg <;> dsimp only [Msg.Late] <;> infer_instance

def Action.OnTime (σ : Sys ι) : Action ι → Prop
  | .deliver j k => ∀ msg ∈ (σ j).out[k]?, ¬ msg.Late (σ msg.dst)
  | _ => True

instance (σ : Sys ι) (a : Action ι) : Decidable (a.OnTime σ) := by
  apply a.casesOn (motive := (Decidable <| ·.OnTime σ)) <;> intros <;>
    dsimp only [Action.OnTime] <;> infer_instance

theorem Node.receive_attached {n : Node ι} (h : n.Attached) (hseq : n.completedWriteSeq ≤ n.log.nextSeq)
    {msg : Msg ι} (hlate : ¬ msg.Late n) : (n.receive msg).Attached := by
  have hmoves : Moves (.msg msg) n (n.receive msg) := receive_moves msg rfl hseq
  cases msg with
  | appendEntriesReply src dst req resp =>
    dsimp only [receive]
    split_ifs with hboot
    · refine handleAppendResult_attached h ?_
      rintro m rfl htakes hcounts
      exact hlate ⟨hboot, htakes, hcounts⟩
    · exact h
  | _ => exact hmoves.attached trivial h

/-- **A change** over anything but an acknowledgement keeps the reads attached. -/
theorem Node.Change.attached {a : Action ι} {offers : Input ι → Prop} {p p' : Node ι × List WriteDone}
    (h : Change a offers p p') (hno : ∀ inp, offers inp → inp.NoAck) (hp : p.1.Attached) :
    p'.1.Attached := by
  cases h with
  | move hinp hmove => exact hmove.attached (hno _ hinp) hp
  | written _ _ _ hmoves => exact hmoves.attached trivial hp
  | writeFailed _ _ _ _ hreads => exact hp.congr hreads
  | beside h =>
    cases h
    exact hp
  | crash i k _ hn =>
    obtain ⟨store, -, hnew⟩ := Option.bind_eq_some_iff.mp hn
    exact new_attached hnew
  | _ => exact hp

namespace Sys

/-- **A step** that delivers no late acknowledgement keeps the reads attached. -/
theorem step_attached {σ : Sys ι} {a : Action ι} (hnum : ∀ i, (σ i).Numbered [])
    (h : ∀ i, (σ i).Attached) (ha : a.OnTime σ) (i : ι) : (σ.step a i).Attached := by
  by_cases hmsg : ∃ j k msg, a = .deliver j k ∧ (σ j).out[k]? = some msg
  · obtain ⟨j, k, msg, rfl, hmsg⟩ := hmsg
    rw [Sys.step, Action.effect, hmsg]
    dsimp only [assign, Option.map_some]
    split_ifs
    · exact (σ msg.dst).receive_attached (h _) (hnum _).completed (ha msg hmsg)
    · exact h i
  · refine (step_keeps hnum a (Q := fun _ p => p.1.Attached) h
      (fun _ hch hp => hch.attached (fun inp hinp => ?_) hp) i).1
    cases inp with
    | msg m =>
      obtain ⟨j, k, hdeliver, hout, -⟩ := hinp.msg
      exact absurd ⟨j, k, m, hdeliver, hout⟩ hmsg
    | _ => trivial

/-- **No read is stranded** in a run that delivers no late acknowledgement. -/
theorem readsAttached_along (cfg : ι → Config ι) (store : ι → Store ι) (as : List (Action ι))
    (has : Along (fun σ a => a.OnTime σ) (start cfg store) as) (k : Nat) (i : ι)
    (hleads : ((start cfg store).run (as.take k) i).state = .leader ∧
      ((start cfg store).run (as.take k) i).leaderNopCommitted = true) :
    ((start cfg store).run (as.take k) i).ReadsAttached := by
  have hattached := has.invariant (I := fun σ => (∀ i, (σ i).Numbered []) ∧ ∀ i, (σ i).Attached)
    (fun h ha => ⟨step_numbered h.1 _, step_attached h.1 h.2 ha⟩)
    ⟨start_numbered cfg store, fun i => Node.start_attached (cfg i) (store i)⟩ k
  exact (hattached.2 i).readsAttached hleads.2

def four : Sys (Fin 4) := start (.ofSize 4) fun _ => .empty

def opensTerm : List (Action (Fin 4)) :=
  [.tick 1, .tick 1, .tick 2, .tick 2, .tick 0, .tick 0, .deliver 0 0, .deliver 0 1, .deliver 1 3,
    .deliver 2 3, .execute 0 none, .complete 0, .deliver 0 3, .deliver 0 4, .execute 1 none,
    .complete 1, .execute 2 none, .complete 2, .deliver 1 4, .deliver 2 4, .execute 0 none,
    .complete 0, .deliver 0 6, .deliver 0 7, .deliver 0 8, .execute 3 none, .complete 3,
    .deliver 1 5, .deliver 2 5, .deliver 3 0, .deliver 0 9, .deliver 0 10, .execute 1 none,
    .complete 1, .execute 2 none, .complete 2, .deliver 1 6, .deliver 2 6]

/-- The third peer answers when the second round is in flight. -/
def confirms : List (Action (Fin 4)) :=
  opensTerm ++ [.readIndex 0 7, .readIndex 0 8, .deliver 0 12, .deliver 0 13, .deliver 0 14,
    .deliver 1 7, .deliver 2 7, .deliver 3 1]

theorem readsAttached_along_confirms :
    Along (fun σ a => a.OnTime σ) four confirms ∧ (four.run (confirms.take 46) 0).pendingReads = [8] ∧
      (four.run (confirms.take 46) 0).ReadsAttached := by
  have hontime : Along (fun σ a => a.OnTime σ) four confirms := by decide +kernel
  exact ⟨hontime, by decide +kernel,
    readsAttached_along _ _ confirms hontime 46 0 (by decide +kernel)⟩

def confirmsLate : List (Action (Fin 4)) :=
  opensTerm ++ [.readIndex 0 7, .deliver 0 12, .deliver 0 13, .deliver 0 14, .deliver 1 7,
    .deliver 2 7, .deliver 3 1, .readIndex 0 8]

/-- **The third acknowledgement strands the next read**: its round has no reads. -/
theorem read_stranded :
    (four.run confirmsLate 0).state = .leader ∧ (four.run confirmsLate 0).leaderNopCommitted = true ∧
      (four.run confirmsLate 0).readBatchAcks = some [3] ∧ (four.run confirmsLate 0).pendingReads = [] ∧
      (four.run confirmsLate 0).waitingReads = [8] := by
  decide +kernel

end Sys

end Raft
