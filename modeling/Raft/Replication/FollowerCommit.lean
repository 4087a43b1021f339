import Raft.Node.Loop
import Raft.Replication.Merge

/-!
# What a follower commits

A follower that accepts a request commits up to the leader's commit index, but not
beyond the entries the request vouches for.  With Log Matching this is sound when the
leader could describe the previous entry.  When it could not, because it has compacted
the entry away, it sends term 0; a follower that does not have the entry reads term 0
as well, accepts, and commits entries the leader has never compared.
-/

namespace Raft

variable {ι : Type}

/-- Histories that agree at an index agree up to it. -/
def LogMatching (hist hist' : List Nat) : Prop :=
  ∀ i t, histTerm hist i = some t → histTerm hist' i = some t →
    ∀ j ≤ i, histTerm hist j = histTerm hist' j

/-- The entry at the index is the leader's, or is under the snapshot. -/
def RaftLog.Has (rl : RaftLog ι) (histL : List Nat) (idx : Nat) : Prop :=
  idx ≤ rl.snapMeta.lastIncludedIndex ∨
    ∃ e ∈ rl.contents, e.index = idx ∧ histTerm histL idx = some e.term

theorem RaftLog.TailOf.has {rl : RaftLog ι} {hist histL : List Nat} {idx : Nat}
    (h : rl.TailOf hist) (hle : idx ≤ hist.length) (hagree : histTerm hist idx = histTerm histL idx) :
    rl.Has histL idx := by
  refine or_iff_not_imp_left.mpr fun hsnap => ?_
  have hf : rl.first ≠ 0 := by
    intro hz
    have := h.length_of_first hz
    omega
  have hlast := h.lastLogIndex_of_first hf
  have hjoined := h.joined hf
  have hadd := h.wf.last_add_one (h.wf.ne_nil_of_first hf)
  obtain ⟨e, he, rfl⟩ := h.wf.contiguous.exists_index (i := idx) (by omega) (by omega)
  exact ⟨e, he, rfl, hagree.symm.trans (h.terms e he)⟩

namespace Node

/-- Every index up to the commit index is under the node's snapshot, or in its log with
the leader's term. -/
def CommitSound (n : Node ι) (histL : List Nat) : Prop :=
  ∀ i, 0 < i → i ≤ n.commitIndex → i ≤ n.log.snapMeta.lastIncludedIndex ∨
    ∃ e ∈ n.log.contents, e.index = i ∧ histTerm histL i = some e.term

def heartbeatCommit (req : AppendEntriesRequest ι) : Nat := min req.leaderCommit req.prevLogIndex

/-- The previous entry is known, or what is committed is already, or the logs agree there. -/
def Vouched (n : Node ι) (hist : List Nat) (req : AppendEntriesRequest ι) (histL : List Nat) :
    Prop :=
  req.prevLogIndex = 0 ∨ req.prevLogTerm ≠ 0 ∨
    heartbeatCommit req ≤ max n.commitIndex n.log.snapMeta.lastIncludedIndex ∨
    ∃ t, histTerm hist (heartbeatCommit req) = some t ∧
      histTerm histL (heartbeatCommit req) = some t

theorem commitSound_of_tail {n : Node ι} {hist histL : List Nat} (ht : n.log.TailOf hist)
    (hcommit : n.commitIndex ≤ hist.length)
    (hagree : ∀ i ≤ n.commitIndex, histTerm hist i = histTerm histL i) : n.CommitSound histL := by
  intro i _ hi
  exact ht.has (hi.trans hcommit) (hagree i hi)

theorem CommitSound.of_log {n' m : Node ι} {histL : List Nat} (hwf : m.log.w.closed = false)
    (hlog : n'.log = m.log ∨ ∃ i, n'.log = m.log.enqueue (.commitIndex i))
    (h : { m with commitIndex := n'.commitIndex }.CommitSound histL) : n'.CommitSound histL := by
  intro i hpos hi
  rcases hlog with heq | ⟨k, heq⟩
  · rw [heq]
    exact h i hpos hi
  · rw [heq, RaftLog.contents_enqueue_commitIndex hwf]
    exact h i hpos hi

variable [DecidableEq ι] [Sized ι] {n : Node ι} {hist histL : List Nat}
  {req : AppendEntriesRequest ι}

section

variable (h : n.Receives hist req histL)

include h

theorem Receives.commitSound_of_agree {n' : Node ι} {idx : Nat}
    (hcommit : n'.commitIndex = max n.commitIndex idx)
    (hlog : n'.log = n.log ∨ ∃ i, n'.log = n.log.enqueue (.commitIndex i)) (hle : idx ≤ hist.length)
    (hagree : ∀ j ≤ idx, histTerm hist j = histTerm histL j) : n'.CommitSound histL := by
  have hbound := h.commit
  refine .of_log h.tail.wf.running.1 hlog (commitSound_of_tail h.tail ?_ fun i hi => ?_)
  · simp only [hcommit]
    omega
  · simp only [hcommit] at hi
    rcases Nat.lt_or_ge n.commitIndex i with hlt | hge
    · exact hagree i (by omega)
    · exact h.agree i (by omega)

theorem Receives.agree_prev (hmatch : LogMatching hist histL) (hadm : n.Admits req)
    (hdesc : req.prevLogTerm ≠ 0) : ∀ j ≤ req.prevLogIndex, histTerm hist j = histTerm histL j := by
  intro j hj
  rcases Nat.eq_zero_or_pos req.prevLogIndex with hz | hpos
  · obtain rfl : j = 0 := by omega
    rfl
  · have hterm := (prevConflict_eq_none_iff n req).mp hadm.1
    have hL := (h.sentFrom.described hpos).resolve_right fun hno => hdesc hno.1
    cases hta : n.log.termAt req.prevLogIndex with
    | none =>
      rw [hta, Option.getD_none] at hterm
      omega
    | some t =>
      rw [hta, Option.getD_some] at hterm
      refine hmatch _ _ (h.tail.termAt_some hpos hta) ?_ j hj
      rw [hL, hterm.resolve_left (by omega)]

theorem commitSound_empty_iff (hmatch : LogMatching hist histL) (hadm : n.Admits req)
    (hnil : req.entries = []) (src : Asker ι) :
    (n.acceptEntries src req (n.received req)).CommitSound histL ↔ n.Vouched hist req histL := by
  have hes := n.received_eq_nil hnil
  have hmerge : n.mergeEntries (n.received req) = .ok (0, n) := by rw [hes]; rfl
  obtain ⟨n', hn', hci, hlog, -⟩ := acceptEntries_ok src req hmerge
  rw [hes, List.length_nil, Nat.add_zero] at hci
  have hbound := h.commit
  have hsnap := h.tail.snap_le
  -- It is enough that the logs agree up to what the request commits.
  have key : heartbeatCommit req ≤ hist.length →
      (∀ j ≤ heartbeatCommit req, histTerm hist j = histTerm histL j) → n'.CommitSound histL :=
    h.commitSound_of_agree hci hlog
  rw [hn']
  constructor
  · intro hsound
    by_contra hno
    simp only [Vouched, not_or] at hno
    obtain ⟨-, -, hgt, hdiff⟩ := hno
    rcases hsound (heartbeatCommit req) (by omega) (by rw [hci]; exact le_max_right _ _) with
      hle | ⟨e, he, hidx, hL⟩
    · have : n'.log.snapMeta = n.log.snapMeta := by
        rcases hlog with heq | ⟨i, heq⟩ <;> rw [heq]
        rfl
      rw [this] at hle
      omega
    · have he' : e ∈ n.log.contents := by
        rcases hlog with heq | ⟨i, heq⟩
        · rwa [heq] at he
        · rwa [heq, RaftLog.contents_enqueue_commitIndex h.tail.wf.running.1] at he
      exact hdiff ⟨e.term, hidx ▸ h.tail.terms e he', hL⟩
  · rintro (hz | hdesc | hle | ⟨t, ht, htL⟩)
    · have hk : heartbeatCommit req = 0 := by rw [heartbeatCommit]; omega
      refine key (by omega) fun j hj => ?_
      obtain rfl : j = 0 := by omega
      rfl
    · have hagree := h.agree_prev hmatch hadm hdesc
      have hle : heartbeatCommit req ≤ req.prevLogIndex := min_le_right _ _
      refine key ?_ fun j hj => hagree j (by omega)
      rcases Nat.eq_zero_or_pos req.prevLogIndex with hz | hpos
      · omega
      · have hL := (h.sentFrom.described hpos).resolve_right fun hno => hdesc hno.1
        rw [← hagree _ le_rfl] at hL
        have := histTerm_bounds hL
        omega
    · exact key (by omega) fun j hj => h.agree j (by omega)
    · exact key (histTerm_bounds ht).2 (hmatch _ t ht htL)

theorem commitSound_startsOver (hover : n.StartsOver req) (hne : req.entries ≠ []) (src : Asker ι) :
    (n.acceptEntries src req (n.received req)).CommitSound histL := by
  obtain ⟨n', hn', hci, hcont, -, hsnap⟩ := h.acceptEntries_startsOver src hover hne
  obtain ⟨hc, hterms, hlen⟩ := h.received_spec
  have hold : n.CommitSound histL :=
    commitSound_of_tail h.tail h.commit fun i hi => h.agree i (by omega)
  rw [hn']
  intro i hpos hi
  rw [hcont, hsnap]
  rcases Nat.lt_or_ge n.commitIndex i with hlt | hge
  · rw [hover.1] at hc
    obtain ⟨e, he, rfl⟩ := hc.exists_index (i := i) (by omega) (by omega)
    exact .inr ⟨e, List.mem_append_right _ he, rfl, hterms e he⟩
  · refine (hold i hpos hge).imp_right ?_
    rintro ⟨e, he, hidx, hL⟩
    exact ⟨e, List.mem_append_left _ he, hidx, hL⟩

section

variable (hmatch : LogMatching hist histL)

include hmatch

theorem Receives.agree_below (hadm : n.Admits req) (hne : req.entries ≠ [])
    {pre rest : List (LogEntry ι)} (hes : n.received req = pre ++ rest)
    (hpre : ∀ e ∈ pre, n.log.termAt e.index = some e.term) :
    ∀ j ≤ req.prevLogIndex + pre.length, histTerm hist j = histTerm histL j := by
  obtain ⟨hc, hterms, -⟩ := h.received_spec
  rw [hes] at hc hterms
  intro j hj
  rcases hc.before with rfl | ⟨pre', x, rfl, hidx⟩
  · rcases Nat.eq_zero_or_pos req.prevLogIndex with hz | hpos
    · obtain rfl : j = 0 := by simpa [hz] using hj
      rfl
    · obtain ⟨hta, hL⟩ := h.prev_found hadm hne hpos
      exact hmatch _ _ (h.tail.termAt_some hpos hta) hL j hj
  · have hx : x ∈ pre' ++ [x] := by simp
    have hpos := List.length_pos_of_mem hx
    exact hmatch x.index x.term (h.tail.termAt_some (by omega) (hpre x hx))
      (hterms x (List.mem_append_left _ hx)) j (by omega)

theorem commitSound_entries (hadm : n.Admits req) (hfol : n.state ≠ .leader)
    (hne : req.entries ≠ []) (hover : ¬ n.StartsOver req) {src : Asker ι}
    (hack : n.Acks (n.acceptEntries src req (n.received req)) src req) :
    (n.acceptEntries src req (n.received req)).CommitSound histL := by
  obtain ⟨hc, hterms, -⟩ := h.received_spec
  have hbound := h.commit
  rcases h.merge hadm hfol hne hover with
    ⟨hall, hin, hok⟩ | ⟨pre, e, rest, m, hes, hidx, hbehind, hle, hpre, hcut, hres⟩
  · obtain ⟨n', hn', hci, hlog, -⟩ := acceptEntries_ok src req hok
    have hagree := h.agree_below hmatch hadm hne (List.append_nil _).symm hall
    rw [hn']
    exact h.commitSound_of_agree hci hlog (by omega) fun j hj => hagree j (by omega)
  · have hframe : m.out = n.out ∧ m.deferredWrites = n.deferredWrites ∧
        m.commitIndex = n.commitIndex := by
      obtain ⟨log, mem, rfl⟩ := hcut.frame
      exact ⟨rfl, rfl, rfl⟩
    rcases hres with herr | ⟨hok, htail, -⟩
    · -- A merge that is given up is not acknowledged.
      have hm : n.acceptEntries src req (n.received req) = m := by simp only [acceptEntries, herr]
      rw [hm] at hack
      obtain ⟨resp, -, ho | ⟨seq, hd⟩⟩ := hack
      · simp [hframe.1] at ho
      · simp [hframe.2.1] at hd
    · obtain ⟨n', hn', hci, hlog, -⟩ := acceptEntries_ok src req hok
      have hagree := h.agree_below hmatch hadm hne hes hpre
      have hlen' := congrArg List.length hes
      rw [List.length_append] at hlen'
      rw [appendEntries_commitIndex, hframe.2.2] at hci
      rw [hn']
      refine .of_log htail.wf.running.1 hlog (commitSound_of_tail htail ?_ fun i hi => ?_)
      · simp only [hci, List.length_append, List.length_map, List.length_take]
        omega
      · simp only [hci] at hi
        rcases Nat.lt_or_ge i e.index with hlt | hge
        · -- Below the first missing entry the log is as before.
          rw [histTerm_append_of_le (by rw [List.length_take]; omega), histTerm_take_of_le (by omega)]
          exact hagree i (by omega)
        · -- From there on it is the request's.
          rw [hes] at hc hterms
          obtain ⟨x, hx, rfl⟩ := hc.right.exists_index (i := i) (by omega) (by omega)
          rw [hterms x (List.mem_append_right _ hx)]
          obtain ⟨-, -, hget⟩ := hc.right.index_of_mem hx
          rw [histTerm, if_neg (by omega), List.getElem?_append_right (by rw [List.length_take]; omega),
            List.getElem?_map, List.length_take,
            show x.index - 1 - min (e.index - 1) hist.length =
              x.index - (req.prevLogIndex + 1 + pre.length) by omega, hget]
          rfl

theorem commitSound_handled {src : Asker ι}
    (hack : n.Acks (n.handleAppendEntries src req) src req) :
    (n.handleAppendEntries src req).CommitSound histL ↔ n.Vouched hist req histL := by
  rcases handleAppendEntries_cases n src req with ⟨-, hadm, heq⟩ | ⟨-, href⟩
  · obtain ⟨hlog, hcommit, hcfg, hstate, hout, hdef⟩ :=
      becomeFollower_frame n req.term (some req.leaderID)
    rw [heq] at hack ⊢
    generalize n.becomeFollower req.term (some req.leaderID) = m at *
    have hlog' : m.log = n.log ∨ ∃ hs, m.log = n.log.enqueue (.hardState hs) := by
      split_ifs at hlog
      · exact .inr ⟨_, hlog⟩
      · exact .inl hlog
    have hm := h.congr hlog' hcommit
    have hfol : m.state ≠ .leader := by simp [hstate]
    have hsnap : m.log.snapMeta = n.log.snapMeta := by
      rcases hlog' with hl | ⟨hs, hl⟩ <;> rw [hl]
      rfl
    have hack' : m.Acks (m.acceptEntries src req (m.received req)) src req := by
      rwa [Acks, hcfg, hout, hdef]
    have hvouch : m.Vouched hist req histL ↔ n.Vouched hist req histL := by
      rw [Vouched, Vouched, hcommit, hsnap]
    by_cases hnil : req.entries = []
    · rw [commitSound_empty_iff hm hmatch hadm hnil, hvouch]
    · refine iff_of_true ?_ ?_
      · by_cases hover : m.StartsOver req
        · exact commitSound_startsOver hm hover hnil src
        · exact commitSound_entries hm hmatch hadm hfol hnil hover hack'
      · rcases Nat.eq_zero_or_pos req.prevLogIndex with hz | hpos
        · exact .inl hz
        · have hL := (h.sentFrom.described hpos).resolve_right fun hno => hnil hno.2
          exact .inr (.inl (h.positive _ (mem_of_histTerm hL)).ne')
  · exact absurd hack href.silent

end

end

/-- **What a follower commits** is what the leader has, exactly when the request vouches for
it. -/
theorem commitSound_iff (h : n.Receives hist req histL) (hmatch : LogMatching hist histL)
    {src : Asker ι} (hack : n.Acks (n.handleAppendEntries src req) src req) :
    (n.handleAppendEntries src req).CommitSound histL ↔ n.Vouched hist req histL :=
  commitSound_handled h hmatch hack

/-! ## A leader that has compacted -/

section Compacted

def compactedNode : Node Nat :=
  ofStore [1, 2, 3] 1 ⟨⟨2, some 1⟩, [], some ⟨⟨3, 2⟩, [], none, none, []⟩, 0⟩ rfl

def compactedLeader (next : Nat) : Node Nat :=
  { compactedNode with state := .leader, nextIndex := fun _ => some next, commitIndex := 3 }

def straggler : Node Nat := ofStore [1, 2, 3] 2 ⟨⟨1, some 3⟩, [⟨1, 1, .user [7]⟩], none, 0⟩ rfl

theorem logMatching_straggler : LogMatching [1] [2, 2, 2] := by
  intro i t hi hL
  have hbound := histTerm_bounds hi
  rw [List.length_singleton] at hbound
  obtain rfl : i = 1 := by omega
  cases hi
  cases hL

theorem receives_compacted (next : Nat) {req : AppendEntriesRequest Nat} {n : Node Nat} {hist : List Nat}
    (hb : (compactedLeader next).Builds 2 req) (htail : n.log.TailOf hist)
    (hcommit : n.commitIndex ≤ hist.length)
    (hagree : ∀ i ≤ max n.commitIndex n.log.snapMeta.lastIncludedIndex,
      histTerm hist i = histTerm [2, 2, 2] i) : n.Receives hist req [2, 2, 2] := by
  have hfresh : RaftLog.Fresh compactedNode.log.w.storage compactedNode.log :=
    .of_new ⟨Contiguous.nil _, by decide⟩ rfl
  refine ⟨htail, hcommit, ⟨compactedLeader next, 2, [2, 2, 2], hb,
    .of_fresh hfresh ?_ ?_ ?_ ?_ ?_, .of_fresh hfresh, ?_, ?_⟩, ?_, hagree⟩
  all_goals decide

theorem tailOf_straggler : straggler.log.TailOf [1] := by
  have hfresh : RaftLog.Fresh straggler.log.w.storage straggler.log :=
    .of_new ⟨Contiguous.singleton _, by decide⟩ rfl
  refine .of_fresh hfresh ?_ ?_ ?_ ?_ ?_
  all_goals decide

/-- The previous entry is compacted away: the follower commits its own entry at index 1, and
index 2, where it has nothing. -/
theorem not_commitSound_compacted :
    let req := (compactedLeader 3).emptyAppend 2 0
    straggler.Receives [1] req [2, 2, 2] ∧ LogMatching [1] [2, 2, 2] ∧
      straggler.Acks (straggler.handleAppendEntries (compactedLeader 3).asker req)
        (compactedLeader 3).asker req ∧
      ¬ (straggler.handleAppendEntries (compactedLeader 3).asker req).CommitSound [2, 2, 2] := by
  intro req
  refine ⟨receives_compacted 3 (.empty 0) tailOf_straggler (by decide) (by decide),
    logMatching_straggler, ⟨⟨2, true, 0, 0⟩, rfl, .inr ⟨1, by decide⟩⟩, fun hsound => ?_⟩
  rcases hsound 2 (by decide) (by decide) with hle | ⟨e, he, hidx, -⟩
  · exact absurd hle (by decide)
  · revert e
    decide

/-- A follower that has all of the leader's entries. -/
def caughtUp : Node Nat :=
  ofStore [1, 2, 3] 2 ⟨⟨2, some 1⟩, [⟨1, 2, .noop⟩, ⟨2, 2, .user [7]⟩, ⟨3, 2, .user [8]⟩], none, 0⟩ rfl

theorem tailOf_caughtUp : caughtUp.log.TailOf [2, 2, 2] := by
  have hfresh : RaftLog.Fresh caughtUp.log.w.storage caughtUp.log :=
    .of_new ⟨(Contiguous.singleton _).append ((Contiguous.singleton _).append (Contiguous.singleton _)),
      by decide⟩ rfl
  refine .of_fresh hfresh ?_ ?_ ?_ ?_ ?_
  all_goals decide

/-- A heartbeat behind the leader's last entry commits all of them. -/
theorem commitSound_caughtUp :
    let n := caughtUp.handleAppendEntries (compactedLeader 4).asker ((compactedLeader 4).emptyAppend 2 0)
    n.commitIndex = 3 ∧ n.CommitSound [2, 2, 2] :=
  ⟨by decide, (commitSound_iff (receives_compacted 4 (.empty 0) tailOf_caughtUp (by decide) (by decide))
    (fun _ _ _ _ _ _ => rfl) ⟨⟨2, true, 0, 0⟩, rfl, .inl (by decide)⟩).mpr (.inr (.inl (by decide)))⟩

end Compacted

end Node

end Raft
