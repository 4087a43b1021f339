import Raft.Turn.Frames

/-!
# What a node says

A node says what it has sent, and what it will send once a write has completed.

## Main definitions

* `Node.Says`: the node has sent a message, or holds it back for a write.
* `Node.Utters`: what a move may add.

## Main results

* `Move.utters`: what every move adds to what a node says.
-/

namespace Raft

variable {ι : Type}

namespace Node

/-- The node has sent the message, or will once the write `seq` has completed.  The work in
`ws` has been taken off its list for the time being. -/
def Says (n : Node ι) (ws : List (DeferredWrite ι)) (seq : Nat) (msg : Msg ι) : Prop :=
  seq = 0 ∧ msg ∈ n.out ∨
    ∃ w ∈ n.deferredWrites ++ ws, w.seq = seq ∧ msg ∈ w.work.answer n.cfg.id

variable {inp : Input ι} {n n' m : Node ι} {ws : List (DeferredWrite ι)} {seq s : Nat} {msg : Msg ι}
  {work : Deferred ι}

theorem Says.of_send {msgs : List (Msg ι)} (h : (n.sendAll msgs).Says ws seq msg) :
    n.Says ws seq msg ∨ seq = 0 ∧ msg ∈ msgs := by
  rcases h with ⟨hzero, h⟩ | h
  · exact (List.mem_append.mp h).imp (fun h => .inl ⟨hzero, h⟩) fun h => ⟨hzero, h⟩
  · exact .inl (.inr h)

theorem Says.of_hold {d : DeferredWrite ι} (h : n'.Says ws seq msg) (hcfg : n'.cfg = n.cfg)
    (hout : n'.out = n.out) (hdef : n'.deferredWrites = n.deferredWrites ++ [d]) :
    n.Says ws seq msg ∨ seq = d.seq ∧ msg ∈ d.work.answer n.cfg.id := by
  rw [Says, hcfg, hout, hdef] at h
  rcases h with h | ⟨w, hw, hseq, hmem⟩
  · exact .inl (.inl h)
  · rw [List.append_assoc, List.mem_append, List.mem_append, List.mem_singleton] at hw
    rcases hw with hw | rfl | hw
    · exact .inl (.inr ⟨w, List.mem_append_left _ hw, hseq, hmem⟩)
    · exact .inr ⟨hseq.symm, hmem⟩
    · exact .inl (.inr ⟨w, List.mem_append_right _ hw, hseq, hmem⟩)

theorem Answers.utters (h : m.Answers s work n') (hcfg : m.cfg = n.cfg) (hout : m.out = n.out)
    (hdef : m.deferredWrites = n.deferredWrites) (hspoken : n'.Says ws seq msg) :
    n.Says ws seq msg ∨
      msg ∈ work.answer n.cfg.id ∧ (seq = s ∨ seq = 0 ∧ s ≤ n'.completedWriteSeq) := by
  have hcfg' : n'.cfg = n.cfg := (congrArg Core.cfg h.core).trans hcfg
  have hcompleted : n'.completedWriteSeq = m.completedWriteSeq :=
    (congrArg Core.completedWriteSeq h.core :)
  have hsent := h.sent
  rw [hout, hdef, hcfg] at hsent
  rcases hsent with ⟨hdone, hout', hdef'⟩ | ⟨-, hout', hdef'⟩
  · have hsend : (n.sendAll (work.answer n.cfg.id)).Says ws seq msg := by
      rwa [Says, hcfg', hout', hdef'] at hspoken
    refine hsend.of_send.imp_right fun ⟨hzero, hmem⟩ => ⟨hmem, ?_⟩
    rw [hcompleted]
    exact hdone.imp (fun hs => hzero.trans hs.symm) fun hs => ⟨hzero, hs⟩
  · exact (hspoken.of_hold hcfg' hout' hdef').imp_right fun ⟨hseq, hmem⟩ => ⟨hmem, .inl hseq⟩

variable [DecidableEq ι] [Sized ι]

/-- What a move may add to what the node says. -/
inductive Utters (inp : Input ι) (n n' : Node ι) (seq : Nat) (msg : Msg ι) : Prop
  | harmless (h : msg.Harmless)
  | refuse (src : Asker ι) (dst : ι) (req : AppendEntriesRequest ι) (resp : AppendEntriesResponse)
      (hinp : inp = .msg (.appendEntries src dst req)) (hno : resp.success = false)
      (hmsg : msg = .appendEntriesReply n.cfg.id src req resp)
  | install (src : Asker ι) (req : InstallSnapshotRequest ι) (resp : InstallSnapshotResponse)
      (hinp : inp = .snapshot ∨ ∃ dst, inp = .msg (.installSnapshot src dst req))
      (hmsg : msg = .installSnapshotReply n.cfg.id src req resp)
  | snapshot (peer : ι) (req : InstallSnapshotRequest ι) (hsnap : n.log.w.storage.snap ≠ none)
      (hmsg : msg = .installSnapshot n.asker peer req)
  | resume (d : WriteDone) (due kept : List (DeferredWrite ι)) (w : DeferredWrite ι)
      (hinp : inp = .written d due kept) (hmem : w ∈ due ++ kept)
      (hmsg : msg ∈ w.work.answer n.cfg.id) (hseq : seq = w.seq ∨ w ∈ due)
  | grant (src : Asker ι) (dst : ι) (req : RequestVoteRequest ι)
      (hinp : inp = .msg (.requestVote src dst req))
      (hlog : n.log.isUpToDate req.lastLogIndex req.lastLogTerm = true)
      (hle : n.currentTerm ≤ req.term) (hterm : n'.currentTerm = req.term)
      (hmsg : msg = .requestVoteReply n.cfg.id src req ⟨req.term, true⟩)
  | ask (peer : ι) (hstate : n.state = .candidate) (hmsg : msg = .requestVote n.asker peer
      ⟨n.currentTerm, n.cfg.id, n.log.lastLogIndex, n.log.lastLogTerm, false⟩)
  | append (peer : ι) (req : AppendEntriesRequest ι)
      (hstate : n.state = .leader ∨ ∃ src dst req, inp = .lost (.installSnapshot src dst req))
      (h : n.Builds peer req) (hmsg : msg = .appendEntries n.asker peer req)
  | ack (src : Asker ι) (dst : ι) (req : AppendEntriesRequest ι) (resp : AppendEntriesResponse)
      (wm : Nat × Node ι) (s : Nat) (hinp : inp = .msg (.appendEntries src dst req))
      (hterm : n.currentTerm = req.term) (hstate : n.state = .follower) (hadm : n.Admits req)
      (h : n' = n.acceptEntries src req (n.received req))
      (hok : n.mergeEntries (n.received req) = .ok wm)
      (hmsg : msg = .appendEntriesReply n.cfg.id src req resp) (hsafe : n'.unsafeTermSeq ≤ s)
      (hgate : req.entries ≠ [] →
        n'.log.writeSeqCovering (req.prevLogIndex + req.entries.length) ≤ s)
      (hseq : seq = s ∨ seq = 0 ∧ s ≤ n'.completedWriteSeq)

/-- What accepting a request is answered with, and when. -/
theorem acceptEntries_answers {src : Asker ι} {req : AppendEntriesRequest ι}
    {es : List (LogEntry ι)} (hstate : n.state ≠ .leader) (heq : n' = n.acceptEntries src req es) :
    n'.cfg = n.cfg ∧ n'.out = n.out ∧ n'.deferredWrites = n.deferredWrites ∨
      ∃ wm, ∃ m : Node ι, ∃ s resp, n.mergeEntries es = .ok wm ∧
        m.Answers s (.appendEntriesReply src req resp) n' ∧ m.cfg = n.cfg ∧ m.out = n.out ∧
        m.deferredWrites = n.deferredWrites ∧ n'.unsafeTermSeq ≤ s ∧
        (es ≠ [] → n'.log.writeSeqCovering (req.prevLogIndex + es.length) ≤ s) := by
  subst heq
  rcases mergeEntries_frame hstate es with ⟨w, log, mem, hmerge, -⟩ | ⟨log, mem, f, hmerge, -⟩
  · refine .inr ?_
    simp only [acceptEntries, hmerge]
    set m₁ : Node ι := { n with log := log, membership := mem.noteAppendedConfig es }
    obtain ⟨m, hm, hcfg, hout, hdef⟩ : ∃ m : Node ι,
        (if m₁.commitIndex < min req.leaderCommit (req.prevLogIndex + es.length) then
          (m₁.setCommitIndex (min req.leaderCommit (req.prevLogIndex + es.length))).notifyApply
          else m₁) = m ∧ m.cfg = n.cfg ∧ m.out = n.out ∧ m.deferredWrites = n.deferredWrites := by
      split_ifs with hlt
      · obtain ⟨log, rec, a, heq, -⟩ := setCommitIndex_notifyApply_cases m₁ hlt
        exact ⟨_, heq, rfl, rfl, rfl⟩
      · exact ⟨_, rfl, rfl, rfl, rfl⟩
    rw [hm]
    have hans := replyAppendWhenDurable_answers m src req ⟨m.currentTerm, true, 0, 0⟩
      (if es.isEmpty = true then w
        else max w (m.log.writeSeqCovering (req.prevLogIndex + es.length)))
    have hunsafe := congrArg Core.unsafeTermSeq hans.core
    refine ⟨_, m, _, _, rfl, hans, hcfg, hout, hdef, hunsafe.trans_le (le_max_left ..), fun hne => ?_⟩
    rw [hans.log, sendGate, if_neg (by simpa using hne)]
    exact (le_max_right ..).trans (le_max_right ..)
  · rw [acceptEntries, hmerge]
    exact .inl ⟨rfl, rfl, rfl⟩

/-- **What a move adds to what the node says.** -/
theorem Move.utters (hmove : Move inp n n') (h : n'.Says ws seq msg) :
    n.Says ws seq msg ∨ Utters inp n n' seq msg := by
  have of_core : ∀ {c : Core ι}, n'.toCore = c → ({ n with toCore := c } : Node ι).Says ws seq msg := by
    rintro c rfl
    exact h
  cases hmove with
  | quiet h => exact .inl (of_core h)
  | rounds hr => exact .inl (of_core hr.core)
  | send msgs hh => exact h.of_send.imp_right fun hmem => .harmless (hh msg hmem.2)
  | hold d hh =>
    refine (h.of_hold (n := n) rfl rfl rfl).imp_right fun ⟨_, hmem⟩ => .harmless ?_
    generalize d.work = work at hh hmem
    cases work with
    | requestVoteReply dst req resp =>
      obtain rfl := List.mem_singleton.mp hmem
      exact hh
    | proposals indices => cases hmem
    | _ => exact hh.elim
  | grant src dst req hinp _ _ hlog hterm hans =>
    refine (Answers.utters (n := n) hans rfl rfl rfl h).imp_right fun ⟨hmem, _⟩ => ?_
    exact .grant src dst req hinp hlog (hterm.elim (fun h => h.1.le) fun h => h.1.le)
      (congrArg Core.currentTerm hans.core :) (List.mem_singleton.mp hmem)
  | stand =>
    exact (h.of_hold (n := n) rfl rfl rfl).imp_right fun ⟨_, hmem⟩ => (by cases hmem)
  | askVotes d due kept seq _ _ hstate =>
    refine h.of_send.imp_right fun hmem => ?_
    obtain ⟨peer, -, rfl⟩ := List.mem_map.mp hmem.2
    exact .ask peer hstate rfl
  | sendAppends msgs hstate hh =>
    refine h.of_send.imp_right fun hmem => ?_
    obtain ⟨peer, req, hb, rfl⟩ := hh msg hmem.2
    exact .append peer req hstate hb rfl
  | sendSnapshots snap msgs hsnap hh =>
    refine h.of_send.imp_right fun hmem => ?_
    obtain ⟨peer, req, rfl, -⟩ := hh msg hmem.2
    exact .snapshot peer req (by rw [hsnap]; simp) rfl
  | accept src dst req hinp hterm hstate hadm heq =>
    rcases acceptEntries_answers (by rw [hstate]; decide) heq with ⟨hcfg, hout, hdef⟩ |
      ⟨wm, m, s, resp, hok, hans, hcfg, hout, hdef, hsafe, hgate⟩
    · rw [Says, hcfg, hout, hdef] at h
      exact .inl h
    · refine (hans.utters hcfg hout hdef h).imp_right fun ⟨hmem, hseq⟩ => ?_
      rw [n.received_length] at hgate
      refine .ack src dst req resp wm s hinp hterm hstate hadm heq hok (List.mem_singleton.mp hmem)
        hsafe (fun hne => hgate fun hnil => hne ?_) hseq
      have := n.received_length req
      rw [hnil] at this
      exact List.length_eq_zero_iff.mp this.symm
  | @answer _ _ work hans hinp =>
    refine (hans.utters rfl rfl rfl h).imp_right fun ⟨hmem, _⟩ => ?_
    cases work with
    | appendEntriesReply src req resp =>
      obtain ⟨hno, dst, rfl⟩ := hinp
      exact .refuse src dst req resp rfl hno (List.mem_singleton.mp hmem)
    | installSnapshotReply src req resp => exact .install src req resp hinp (List.mem_singleton.mp hmem)
    | _ => exact hinp.elim
  | written d due kept =>
    rcases h with h | ⟨w, hw, h⟩
    · exact .inl (.inl h)
    · exact .inl (.inr ⟨w, List.mem_append_right _ hw, h⟩)
  | resume d due kept w hinp hdue =>
    exact h.of_send.imp_right fun hm =>
      .resume d due kept w hinp (List.mem_append_left _ hdue) hm.2 (.inr hdue)
  | keep d due kept hinp =>
    rcases h with h | ⟨w, hw, hseq, hmem⟩
    · exact .inl (.inl h)
    · rw [List.append_assoc, List.mem_append] at hw
      rcases hw with hw | hw
      · exact .inr (.resume d due kept w hinp (List.mem_append_right _ hw) hmem (.inl hseq.symm))
      · exact .inl (.inr ⟨w, hw, hseq, hmem⟩)
  | _ => exact .inl h

end Node

end Raft
