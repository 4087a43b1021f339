import Raft.Node.Replication
import Raft.Replication.Requests

/-!
# What a follower does with a request

Handling an AppendEntries request is a sequence of simple changes: the node becomes
a follower of the sender, the entries are merged into its log, the commit index may
advance, and an answer is sent or held back.  This module says what each of them
does to the log.

## Main results

* `mergeEntries_cases`: the three ways a request's entries meet the log.
* `acceptEntries_ok`: the state after a request has been accepted.
* `handleAppendEntries_cases`: the outcomes of a request.
-/

namespace Raft

variable {ι : Type}

namespace Node

section

variable (n : Node ι)

theorem afterWrite_cases (seq : Nat) (work : Deferred ι) (run : Node ι → Node ι) :
    (seq = 0 ∨ seq ≤ n.completedWriteSeq) ∧ n.afterWrite seq work run = run n ∨
      (seq ≠ 0 ∧ n.completedWriteSeq < seq) ∧ n.afterWrite seq work run =
        { n with deferredWrites := n.deferredWrites ++ [⟨seq, work⟩] } := by
  unfold afterWrite
  split_ifs with h
  · exact .inl ⟨h, rfl⟩
  · exact .inr ⟨by omega, rfl⟩

theorem maybeRecordCommit_cases :
    n.maybeRecordCommit = n ∨ ∃ idx, n.maybeRecordCommit =
      { n with recordedCommit := idx, log := n.log.enqueue (.commitIndex idx) } := by
  simp only [maybeRecordCommit]
  split_ifs
  · exact .inl rfl
  · exact .inl rfl
  · exact .inr ⟨_, rfl⟩

theorem notifyApply_cases :
    n.notifyApply = n ∨
      ∃ i, n.notifyApply = { n with apply := { n.apply with commitNotify := some i } } := by
  simp only [notifyApply]
  split_ifs
  · exact .inl rfl
  · exact .inr ⟨_, rfl⟩

theorem setCommitIndex_notifyApply_cases {idx : Nat} (h : n.commitIndex < idx) :
    ∃ log rec notify, (n.setCommitIndex idx).notifyApply =
        { n with
          commitIndex := idx, log := log, recordedCommit := rec
          apply := { n.apply with commitNotify := notify } } ∧
      (log = n.log ∨ ∃ i, log = n.log.enqueue (.commitIndex i)) := by
  rw [setCommitIndex, if_neg (by omega)]
  have hnotify := notifyApply_cases ({ n with commitIndex := idx }.maybeRecordCommit)
  rcases maybeRecordCommit_cases { n with commitIndex := idx } with hrec | ⟨i, hrec⟩ <;>
    rw [hrec] at hnotify ⊢ <;> rcases hnotify with hn | ⟨k, hn⟩ <;> rw [hn]
  · exact ⟨_, _, n.apply.commitNotify, rfl, .inl rfl⟩
  · exact ⟨_, _, some k, rfl, .inl rfl⟩
  · exact ⟨_, _, n.apply.commitNotify, rfl, .inr ⟨i, rfl⟩⟩
  · exact ⟨_, _, some k, rfl, .inr ⟨i, rfl⟩⟩

@[simp] theorem appendEntries_commitIndex [Sized ι] (es : List (LogEntry ι)) :
    (n.appendEntries es).2.commitIndex = n.commitIndex := rfl

end

/-- The node has answered the request with success, or will. -/
def Acks (n n' : Node ι) (src : Asker ι) (req : AppendEntriesRequest ι) : Prop :=
  ∃ resp : AppendEntriesResponse, resp.success = true ∧
    (n'.out = n.out ++ [.appendEntriesReply n.cfg.id src req resp] ∨
      ∃ seq, n'.deferredWrites = n.deferredWrites ++ [⟨seq, .appendEntriesReply src req resp⟩])

structure Refused (n n' : Node ι) (src : Asker ι) (req : AppendEntriesRequest ι) : Prop where
  log : n'.log = n.log ∨ ∃ hs, n'.log = n.log.enqueue (.hardState hs)
  commitIndex : n'.commitIndex = n.commitIndex
  silent : ¬ n.Acks n' src req

variable {m n : Node ι}

theorem Refused.of_reply {src : Asker ι} {req : AppendEntriesRequest ι}
    {resp : AppendEntriesResponse} (seq : Nat)
    (hlog : m.log = n.log ∨ ∃ hs, m.log = n.log.enqueue (.hardState hs))
    (hcommit : m.commitIndex = n.commitIndex) (hcfg : m.cfg = n.cfg) (hout : m.out = n.out)
    (hdef : m.deferredWrites = n.deferredWrites) (hresp : resp.success = false) :
    n.Refused (m.replyAppendWhenDurable src req resp seq) src req := by
  unfold replyAppendWhenDurable
  rcases afterWrite_cases m (m.sendGate seq) (.appendEntriesReply src req resp)
    (·.replyAppend src req resp) with ⟨-, heq⟩ | ⟨-, heq⟩ <;> rw [heq]
  · refine ⟨hlog, hcommit, ?_⟩
    rintro ⟨resp', hok, h | ⟨seq, h⟩⟩
    · simp only [replyAppend, send, sendAll, hout, hcfg, List.append_cancel_left_eq, List.cons.injEq,
        Msg.appendEntriesReply.injEq, and_true, true_and] at h
      rw [h, hok] at hresp
      cases hresp
    · simp [replyAppend, send, sendAll, hdef] at h
  · refine ⟨hlog, hcommit, ?_⟩
    rintro ⟨resp', hok, h | ⟨seq, h⟩⟩
    · simp [hout] at h
    · simp only [hdef, List.append_cancel_left_eq, List.cons.injEq, DeferredWrite.mk.injEq,
        Deferred.appendEntriesReply.injEq, and_true, true_and] at h
      rw [h.2, hok] at hresp
      cases hresp

def received (n : Node ι) (req : AppendEntriesRequest ι) : List (LogEntry ι) :=
  if n.cfg.witness then stripForWitness req.entries else req.entries

theorem received_shape (n : Node ι) (req : AppendEntriesRequest ι) :
    (n.received req).map LogEntry.shape = req.entries.map LogEntry.shape := by
  unfold received
  split_ifs
  · exact stripForWitness_shape _
  · rfl

theorem received_length (n : Node ι) (req : AppendEntriesRequest ι) :
    (n.received req).length = req.entries.length := by
  simpa using congrArg List.length (n.received_shape req)

theorem received_eq_nil (n : Node ι) {req : AppendEntriesRequest ι} (hnil : req.entries = []) :
    n.received req = [] :=
  List.length_eq_zero_iff.mp (by rw [received_length, hnil, List.length_nil])

theorem prevConflict_congr (h : m.log = n.log) (req : AppendEntriesRequest ι) :
    m.prevConflict req = n.prevConflict req := by
  simp only [prevConflict, h]

theorem backlogFull_congr (h : m.log = n.log) (hcfg : m.cfg = n.cfg) (es : List (LogEntry ι)) :
    m.backlogFull es = n.backlogFull es := by
  have hlimit : m.unstableLimit = n.unstableLimit := by simp only [unstableLimit, hcfg]
  unfold backlogFull
  rw [hlimit, h]

theorem prevConflict_eq_none_iff (n : Node ι) (req : AppendEntriesRequest ι) :
    n.prevConflict req = none ↔ req.prevLogIndex = 0 ∨
      (n.log.termAt req.prevLogIndex).getD 0 = req.prevLogTerm := by
  simp only [prevConflict]
  split_ifs with h h'
  · simp
    omega
  · simp
    omega
  · simp
    omega

variable [DecidableEq ι]

theorem becomeFollower_frame (n : Node ι) (term : Nat) (leaderID : Option ι) :
    let n' := n.becomeFollower term leaderID
    (n'.log = if n.currentTerm < term then n.log.enqueue (.hardState ⟨term, none⟩) else n.log) ∧
      n'.commitIndex = n.commitIndex ∧ n'.cfg = n.cfg ∧ n'.state = .follower ∧
      n'.out = n.out ∧ n'.deferredWrites = n.deferredWrites := by
  simp only [becomeFollower]
  split_ifs <;> exact ⟨rfl, rfl, rfl, rfl, rfl, rfl⟩

theorem becomeFollower_same (n : Node ι) (leaderID : Option ι) :
    (n.becomeFollower n.currentTerm leaderID).log = n.log := by
  rw [(becomeFollower_frame n n.currentTerm leaderID).1, if_neg (Nat.lt_irrefl _)]

variable [Sized ι]

section

variable (h : n.state ≠ .leader)

include h

theorem adoptConfigEntry_of_follower (op : ConfigOp ι) (index : Nat) :
    ∃ m, n.adoptConfigEntry op index = { n with membership := m } := by
  cases op with
  | add peer =>
    simp only [adoptConfigEntry, adoptAdd, recount]
    split_ifs
    · exact ⟨_, rfl⟩
    · split
      · split_ifs
        · exact ⟨_, rfl⟩
        · exact ⟨_, rfl⟩
      · exact ⟨_, rfl⟩
  | remove id =>
    simp only [adoptConfigEntry, adoptRemove]
    split_ifs <;> exact ⟨_, rfl⟩
  | joint old new | finalise members =>
    exact ⟨_, if_pos h⟩
  | clientTableCap capacity => exact ⟨_, rfl⟩
  | commitQuorum q =>
    exact ⟨_, if_neg h⟩

theorem adoptEntries_of_follower (es : List (LogEntry ι)) :
    ∃ m, n.adoptEntries es = { n with membership := m } := by
  unfold adoptEntries
  induction es generalizing n with
  | nil => exact ⟨n.membership, rfl⟩
  | cons e es ih =>
    rw [List.foldl_cons]
    cases e.command with
    | user payload => exact ih h
    | config op =>
      obtain ⟨m, hm⟩ := adoptConfigEntry_of_follower h op e.index
      simp only [hm]
      exact ih h

theorem rebuildMembership_of_follower :
    ∃ m ok, n.rebuildMembership = ({ n with membership := m }, ok) := by
  simp only [rebuildMembership]
  split_ifs
  · exact ⟨_, true, rfl⟩
  · split
    · exact ⟨_, false, rfl⟩
    · rename_i es _
      obtain ⟨m, hm⟩ := adoptEntries_of_follower (n := n.restoreBase) h es
      exact ⟨m, true, by rw [hm]; rfl⟩

theorem truncateConflict_of_some {index : Nat} {log : RaftLog ι}
    (hlog : n.log.truncateSuffix index = some log) :
    ∃ m ok, n.truncateConflict index = ({ n with log := log, membership := m }, ok) := by
  simp only [truncateConflict, hlog]
  split_ifs
  · exact rebuildMembership_of_follower (n := { n with log := log }) h
  · exact ⟨_, true, rfl⟩

end

/-- **How entries meet the log**: all are there, one is missing, or one conflicts. -/
theorem mergeEntries_cases (n : Node ι) (es : List (LogEntry ι)) :
    (∀ e ∈ es, n.log.termAt e.index = some e.term) ∧ n.mergeEntries es = .ok (0, n) ∨
    ∃ pre e rest, es = pre ++ e :: rest ∧ (∀ e' ∈ pre, n.log.termAt e'.index = some e'.term) ∧
      (n.log.termAt e.index = none ∧ n.mergeEntries es = .ok (n.appendEntries (e :: rest)) ∨
        (∃ t, n.log.termAt e.index = some t ∧ t ≠ e.term) ∧
          ((∃ m, n.truncateConflict e.index = (m, false) ∧ n.mergeEntries es = .error m) ∨
            ∃ m, n.truncateConflict e.index = (m, true) ∧
              n.mergeEntries es = .ok (m.appendEntries (e :: rest)))) := by
  induction es with
  | nil => exact .inl ⟨by simp, rfl⟩
  | cons e es ih =>
    cases ht : n.log.termAt e.index with
    | none =>
      refine .inr ⟨[], e, es, rfl, by simp, .inl ⟨ht, ?_⟩⟩
      simp [mergeEntries, ht]
    | some t =>
      -- an entry that is there is skipped, and the rest decides
      by_cases heq : t = e.term
      · have hskip : n.mergeEntries (e :: es) = n.mergeEntries es := by
          simp [mergeEntries, ht, heq]
        rcases ih with ⟨hall, hok⟩ | ⟨pre, e', rest, hes, hpre, hcase⟩
        · refine .inl ⟨?_, hskip.trans hok⟩
          rintro e' (_ | ⟨_, he'⟩)
          · rw [ht, heq]
          · exact hall e' he'
        · refine .inr ⟨e :: pre, e', rest, by rw [hes]; rfl, ?_, by rwa [hskip]⟩
          rintro e'' (_ | ⟨_, he''⟩)
          · rw [ht, heq]
          · exact hpre e'' he''
      · refine .inr ⟨[], e, es, rfl, by simp, .inr ⟨⟨t, ht, heq⟩, ?_⟩⟩
        rcases htr : n.truncateConflict e.index with ⟨m, - | -⟩
        · exact .inl ⟨m, rfl, by simp [mergeEntries, ht, heq, htr]⟩
        · exact .inr ⟨m, rfl, by simp [mergeEntries, ht, heq, htr]⟩

theorem mergeEntries_cut {es rest : List (LogEntry ι)} {e : LogEntry ι} {log : RaftLog ι}
    (hfol : n.state ≠ .leader) (hlog : n.log.truncateSuffix e.index = some log)
    (hcut : (∃ m, n.truncateConflict e.index = (m, false) ∧ n.mergeEntries es = .error m) ∨
      ∃ m, n.truncateConflict e.index = (m, true) ∧
        n.mergeEntries es = .ok (m.appendEntries (e :: rest))) :
    ∃ mem, n.mergeEntries es = .error { n with log := log, membership := mem } ∨
      n.mergeEntries es =
        .ok ({ n with log := log, membership := mem }.appendEntries (e :: rest)) := by
  obtain ⟨mem, ok, htr⟩ := truncateConflict_of_some hfol hlog
  refine ⟨mem, ?_⟩
  rcases hcut with ⟨m, hm, herr⟩ | ⟨m, hm, hok⟩ <;>
    obtain ⟨rfl, -⟩ := Prod.mk.inj (hm.symm.trans htr)
  · exact .inl herr
  · exact .inr hok

def Admits (n : Node ι) (req : AppendEntriesRequest ι) : Prop :=
  n.prevConflict req = none ∧ n.backlogFull req.entries = false

/-- **The outcomes of a request**: a follower of its sender accepts it, or it is refused. -/
theorem handleAppendEntries_cases (n : Node ι) (src : Asker ι) (req : AppendEntriesRequest ι) :
    let m := n.becomeFollower req.term (some req.leaderID)
    (n.currentTerm ≤ req.term ∧ m.Admits req ∧
        n.handleAppendEntries src req = m.acceptEntries src req (m.received req)) ∨
      (n.currentTerm ≤ req.term → ¬ m.Admits req) ∧
        n.Refused (n.handleAppendEntries src req) src req := by
  obtain ⟨hlog, hcommit, hcfg, -, hout, hdef⟩ := becomeFollower_frame n req.term (some req.leaderID)
  simp only [handleAppendEntries]
  generalize n.becomeFollower req.term (some req.leaderID) = m at hlog hcommit hcfg hout hdef ⊢
  have hlog' : m.log = n.log ∨ ∃ hs, m.log = n.log.enqueue (.hardState hs) := by
    split_ifs at hlog
    · exact .inr ⟨_, hlog⟩
    · exact .inl hlog
  by_cases hterm : req.term < n.currentTerm
  · refine .inr ⟨fun h => absurd hterm (by omega), ?_⟩
    rw [if_pos hterm]
    exact .of_reply 0 (.inl rfl) rfl rfl rfl rfl rfl
  · rw [if_neg hterm]
    cases hprev : m.prevConflict req with
    | some c =>
      refine .inr ⟨fun _ h => ?_, .of_reply 0 hlog' hcommit hcfg hout hdef rfl⟩
      cases hprev.symm.trans h.1
    | none =>
      -- a request there is no room for goes unanswered
      cases hfull : m.backlogFull req.entries with
      | true =>
        refine .inr ⟨fun _ h => ?_, hlog', hcommit, ?_⟩
        · cases hfull.symm.trans h.2
        · rintro ⟨resp, -, h | ⟨seq, h⟩⟩
          · simp [hout] at h
          · simp [hdef] at h
      | false => exact .inl ⟨by omega, ⟨hprev, hfull⟩, rfl⟩

theorem acceptEntries_ok (src : Asker ι) (req : AppendEntriesRequest ι) {es : List (LogEntry ι)}
    {wm : Nat × Node ι} (h : n.mergeEntries es = .ok wm) :
    ∃ n', n.acceptEntries src req es = n' ∧
      n'.commitIndex = max wm.2.commitIndex (min req.leaderCommit (req.prevLogIndex + es.length)) ∧
      (n'.log = wm.2.log ∨ ∃ i, n'.log = wm.2.log.enqueue (.commitIndex i)) ∧
      wm.2.Acks n' src req := by
  simp only [acceptEntries, h]
  generalize wm.2 = m
  set m₁ : Node ι := { m with membership := m.membership.noteAppendedConfig es }
  set newCommit := min req.leaderCommit (req.prevLogIndex + es.length)
  -- the node once it has raised its commit index
  obtain ⟨m₂, hm₂, hcommit, hlog, hcfg, hout, hdef⟩ : ∃ m₂ : Node ι,
      (if m₁.commitIndex < newCommit then (m₁.setCommitIndex newCommit).notifyApply else m₁) = m₂ ∧
      m₂.commitIndex = max m.commitIndex newCommit ∧
      (m₂.log = m.log ∨ ∃ i, m₂.log = m.log.enqueue (.commitIndex i)) ∧
      m₂.cfg = m.cfg ∧ m₂.out = m.out ∧ m₂.deferredWrites = m.deferredWrites := by
    split_ifs with hlt
    · obtain ⟨log, rec, a, heq, hlog⟩ := setCommitIndex_notifyApply_cases m₁ hlt
      rw [heq]
      exact ⟨_, rfl, (max_eq_right (Nat.le_of_lt hlt)).symm, hlog, rfl, rfl, rfl⟩
    · exact ⟨_, rfl, (max_eq_left (Nat.le_of_not_lt hlt)).symm, .inl rfl, rfl, rfl, rfl⟩
  rw [hm₂, replyAppendWhenDurable]
  rcases afterWrite_cases m₂ _ _ _ with ⟨-, heq⟩ | ⟨-, heq⟩ <;>
    refine ⟨_, heq, hcommit, hlog, ⟨m₂.currentTerm, true, 0, 0⟩, rfl, ?_⟩
  · refine .inl ?_
    simp [replyAppend, send, sendAll, hout, hcfg]
  · rw [← hdef]
    exact .inr ⟨_, rfl⟩

end Node

end Raft
