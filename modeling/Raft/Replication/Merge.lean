import Raft.Replication.Follower

/-!
# Merging entries into a log

A request whose previous entry is in the log is merged at the first entry the log
lacks: what the log has from there on goes, and the rest of the request takes its
place.  The history of the log changes accordingly.

## Main results

* `Builds.sentFrom`: what a leader sends comes from its history.
* `mergeEntries_tail`: the history of the log after a merge.
-/

namespace Raft

variable {ι : Type} {hist : List Nat} {n : Node ι}

/-- The entries are a part of the history behind `prevLogIndex`, or there are none. -/
structure AppendEntriesRequest.SentFrom (req : AppendEntriesRequest ι) (hist : List Nat) :
    Prop where
  contiguous : Contiguous (req.prevLogIndex + 1) req.entries
  terms : OfHist hist req.entries
  described : 0 < req.prevLogIndex →
    histTerm hist req.prevLogIndex = some req.prevLogTerm ∨ req.prevLogTerm = 0 ∧ req.entries = []
  positive : ∀ t ∈ hist, 0 < t

theorem histTerm_of_prefix {hist' : List Nat} {i t : Nat} (h : hist' <+: hist)
    (ht : histTerm hist' i = some t) : histTerm hist i = some t := by
  obtain ⟨_, rfl⟩ := h
  exact histTerm_append_left ht

namespace Node

section Leader

variable [DecidableEq ι] [Sized ι]

theorem Builds.sentFrom {peer : ι} {req : AppendEntriesRequest ι} {hist' : List Nat}
    (hb : n.Builds peer req) (ht : n.log.TailOf hist') (hseg : n.log.Segmented)
    (hbound : hist'.length < 2 ^ 64 - 1) (hpre : hist' <+: hist) (hpos : ∀ t ∈ hist, 0 < t) :
    req.SentFrom hist := by
  obtain ⟨-, -, hprev, hc, hterms, hdesc⟩ := hb.spec ht hseg hbound
  refine ⟨hc, fun e he => histTerm_of_prefix hpre (hterms e he), ?_, hpos⟩
  intro hpos
  cases hta : n.log.termAt req.prevLogIndex with
  | some t =>
    rw [hta, Option.getD_some] at hprev
    exact .inl (hprev ▸ histTerm_of_prefix hpre (ht.termAt_some hpos hta))
  | none =>
    rw [hta, Option.getD_none] at hprev
    refine .inr ⟨hprev, ?_⟩
    by_contra hne
    obtain ⟨t, ht'⟩ := hdesc hne
    cases hta.symm.trans ht'

end Leader

end Node

theorem RaftLog.TailOf.missing {rl : RaftLog ι} {i : Nat} (h : rl.TailOf hist) (hi : 0 < i)
    (hnone : rl.termAt i = none) (hprev : 1 < i → ∃ t, rl.termAt (i - 1) = some t) :
    i = hist.length + 1 ∨ i = 1 ∧ i < rl.snapMeta.lastIncludedIndex := by
  rcases h.termAt_none hi hnone with hend | ⟨hsnap, hfirst⟩
  · refine .inl ?_
    rcases Nat.lt_or_ge 1 i with hlt | hle
    · obtain ⟨t, ht⟩ := hprev hlt
      have := histTerm_bounds (h.termAt_some (by omega) ht)
      omega
    · omega
  · refine .inr ⟨?_, hsnap⟩
    by_contra hne
    obtain ⟨t, ht⟩ := hprev (by omega)
    rw [termAt, if_neg (by omega), if_neg (by omega), if_pos (by omega)] at ht
    cases ht

namespace Node

def StartsOver (n : Node ι) (req : AppendEntriesRequest ι) : Prop :=
  req.prevLogIndex = 0 ∧ n.log.termAt 1 = none ∧ 0 < n.log.snapMeta.lastIncludedIndex

/-- The log has been cut to the entries below `i`, and nothing else but the membership has changed.
-/
structure CutAt (n : Node ι) (hist : List Nat) (i : Nat) (m : Node ι) : Prop where
  frame : ∃ log membership, m = { n with log := log, membership := membership }
  tail : m.log.TailOf (hist.take (i - 1))
  contents : m.log.contents = n.log.contents.filter (·.index < i)
  snapMeta : m.log.snapMeta = n.log.snapMeta

theorem CutAt.self (h : n.log.TailOf hist) : n.CutAt hist (hist.length + 1) n := by
  refine ⟨⟨_, _, rfl⟩, ?_, ?_, rfl⟩
  · rwa [Nat.add_sub_cancel, List.take_length]
  · refine (List.filter_eq_self.mpr fun e he => ?_).symm
    have := histTerm_bounds (h.terms e he)
    exact decide_eq_true (by omega)

variable [DecidableEq ι] [Sized ι]

/-- **The merge**: the log has all the entries, or its own give way from the first it lacks
on. -/
theorem mergeEntries_tail {prev : Nat} {es : List (LogEntry ι)} (ht : n.log.TailOf hist)
    (hfol : n.state ≠ .leader) (hc : Contiguous (prev + 1) es)
    (hprev : 0 < prev → ∃ t, n.log.termAt prev = some t)
    (hone : prev = 0 → n.log.termAt 1 = none → n.log.snapMeta.lastIncludedIndex = 0)
    (hsnap : ∀ e ∈ es, e.index ≤ n.log.snapMeta.lastIncludedIndex →
      ∀ t, n.log.termAt e.index = some t → t = e.term) :
    (∀ e ∈ es, n.log.termAt e.index = some e.term) ∧ n.mergeEntries es = .ok (0, n) ∨
    ∃ pre e rest m, es = pre ++ e :: rest ∧ (∀ e' ∈ pre, n.log.termAt e'.index = some e'.term) ∧
      e.index ≤ hist.length + 1 ∧ n.log.snapMeta.lastIncludedIndex < e.index ∧
      histTerm hist e.index ≠ some e.term ∧ n.CutAt hist e.index m ∧
      (n.mergeEntries es = .error m ∨ n.mergeEntries es = .ok (m.appendEntries (e :: rest))) := by
  rcases mergeEntries_cases n es with hall | ⟨pre, e, rest, rfl, hpre, hcase⟩
  · exact .inl hall
  refine .inr ⟨pre, e, rest, ?_⟩
  have hidx : e.index = prev + 1 + pre.length :=
    hc.right.head?_index rfl
  have hbefore : 1 < e.index → ∃ t, n.log.termAt (e.index - 1) = some t := by
    intro hlt
    rcases hc.before with rfl | ⟨pre', x, rfl, hx⟩
    · rw [hidx]
      simpa using hprev (by simp at hidx; omega)
    · refine ⟨x.term, ?_⟩
      rw [← hpre x (by simp), hx, hidx]
      congr 1
      omega
  rcases hcase with ⟨hnone, hok⟩ | ⟨⟨t, hsome, hne⟩, hcut⟩
  · have hend : e.index = hist.length + 1 := by
      rcases ht.missing (by omega) hnone hbefore with hend | ⟨hfirst, hlt⟩
      · exact hend
      · have := hone (by omega) (hfirst ▸ hnone)
        omega
    have hle := ht.snap_le
    refine ⟨n, rfl, hpre, by omega, by omega, ?_, ?_, .inr hok⟩
    · intro hcon
      have := histTerm_bounds hcon
      omega
    · rw [hend]
      exact .self ht
  · have hbehind : n.log.snapMeta.lastIncludedIndex < e.index := by
      by_contra hle
      exact hne (hsnap e (by simp) (by omega) t hsome)
    have hhist := ht.termAt_some (by omega) hsome
    have hbound := histTerm_bounds hhist
    have hfirst : n.log.first ≠ 0 := by
      intro hz
      have := ht.length_of_first hz
      omega
    have hlast := ht.lastLogIndex_of_first hfirst
    have hjoined := ht.joined hfirst
    obtain ⟨log, hlog, htail, hcont, hmeta⟩ :=
      ht.exists_cut hfirst hbehind (by omega) (by omega)
    obtain ⟨mem, hres⟩ := mergeEntries_cut hfol hlog hcut
    refine ⟨_, rfl, hpre, by omega, hbehind, ?_, ⟨⟨log, mem, rfl⟩, htail, hcont, hmeta⟩, hres⟩
    rw [hhist]
    exact fun hcon => hne (Option.some.inj hcon)

/-- A follower and a request sent to it, with the terms of both logs. -/
structure Receives (n : Node ι) (hist : List Nat) (req : AppendEntriesRequest ι)
    (histL : List Nat) : Prop where
  tail : n.log.TailOf hist
  commit : n.commitIndex ≤ hist.length
  sender : ∃ (ldr : Node ι) (peer : ι) (hist' : List Nat), ldr.Builds peer req ∧
    ldr.log.TailOf hist' ∧ ldr.log.Segmented ∧ hist' <+: histL ∧ hist'.length < 2 ^ 64 - 1
  positive : ∀ t ∈ histL, 0 < t
  agree : ∀ i ≤ max n.commitIndex n.log.snapMeta.lastIncludedIndex,
    histTerm hist i = histTerm histL i

namespace Receives

variable {n m : Node ι} {hist histL : List Nat} {req : AppendEntriesRequest ι}

section

variable (h : n.Receives hist req histL)

include h

theorem sentFrom : req.SentFrom histL := by
  obtain ⟨ldr, peer, hist', hb, htail, hseg, hpre, hbound⟩ := h.sender
  exact hb.sentFrom htail hseg hbound hpre h.positive

theorem congr (hlog : m.log = n.log ∨ ∃ hs, m.log = n.log.enqueue (.hardState hs))
    (hcommit : m.commitIndex = n.commitIndex) : m.Receives hist req histL := by
  rcases hlog with hlog | ⟨hs, hlog⟩
  · exact ⟨hlog ▸ h.tail, hcommit ▸ h.commit, h.sender, h.positive, by rw [hlog, hcommit]; exact h.agree⟩
  · exact ⟨hlog ▸ h.tail.enqueue_hardState hs, hcommit ▸ h.commit, h.sender, h.positive,
      by rw [hlog, hcommit]; exact h.agree⟩

theorem received_spec :
    Contiguous (req.prevLogIndex + 1) (n.received req) ∧ OfHist histL (n.received req) ∧
      (n.received req).length = req.entries.length := by
  have hshape := n.received_shape req
  exact ⟨h.sentFrom.contiguous.of_shape hshape, h.sentFrom.terms.of_shape hshape, n.received_length req⟩

theorem prev_found (hadm : n.Admits req) (hne : req.entries ≠ []) (hpos : 0 < req.prevLogIndex) :
    n.log.termAt req.prevLogIndex = some req.prevLogTerm ∧
      histTerm histL req.prevLogIndex = some req.prevLogTerm := by
  rcases h.sentFrom.described hpos with hdesc | ⟨-, hnil⟩
  · refine ⟨?_, hdesc⟩
    have hterm := (prevConflict_eq_none_iff n req).mp hadm.1
    have htpos := h.positive _ (mem_of_histTerm hdesc)
    cases hta : n.log.termAt req.prevLogIndex with
    | some t =>
      rw [hta, Option.getD_some] at hterm
      rw [hterm.resolve_left (by omega)]
    | none =>
      rw [hta, Option.getD_none] at hterm
      omega
  · exact absurd hnil hne

/-- **Merging a request**: the log has the entries, or it is cut behind the committed prefix. -/
theorem merge (hadm : n.Admits req) (hfol : n.state ≠ .leader) (hne : req.entries ≠ [])
    (hover : ¬ n.StartsOver req) :
    ((∀ e ∈ n.received req, n.log.termAt e.index = some e.term) ∧
        req.prevLogIndex + (n.received req).length ≤ hist.length ∧
        n.mergeEntries (n.received req) = .ok (0, n)) ∨
    ∃ pre e rest m, n.received req = pre ++ e :: rest ∧
      e.index = req.prevLogIndex + 1 + pre.length ∧
      max n.commitIndex n.log.snapMeta.lastIncludedIndex < e.index ∧ e.index ≤ hist.length + 1 ∧
      (∀ e' ∈ pre, n.log.termAt e'.index = some e'.term) ∧
      n.CutAt hist e.index m ∧ (n.mergeEntries (n.received req) = .error m ∨
        n.mergeEntries (n.received req) = .ok (m.appendEntries (e :: rest)) ∧
        (m.appendEntries (e :: rest)).2.log.TailOf
          (hist.take (e.index - 1) ++ (e :: rest).map (·.term)) ∧
        (m.appendEntries (e :: rest)).2.log.contents = m.log.contents ++ e :: rest) := by
  obtain ⟨hc, hterms, hlen⟩ := h.received_spec
  generalize n.received req = es at hc hterms hlen ⊢
  have hprev : 0 < req.prevLogIndex → ∃ t, n.log.termAt req.prevLogIndex = some t :=
    fun hpos => ⟨_, (h.prev_found hadm hne hpos).1⟩
  have hone : req.prevLogIndex = 0 → n.log.termAt 1 = none →
      n.log.snapMeta.lastIncludedIndex = 0 := by
    intro hz hm
    by_contra hpos
    exact hover ⟨hz, hm, by omega⟩
  have hagree : ∀ e ∈ es, e.index ≤ max n.commitIndex n.log.snapMeta.lastIncludedIndex →
      histTerm hist e.index = some e.term :=
    fun e he hle => (h.agree _ hle).trans (hterms e he)
  have hsnap : ∀ e ∈ es, e.index ≤ n.log.snapMeta.lastIncludedIndex →
      ∀ t, n.log.termAt e.index = some t → t = e.term := by
    intro e he hle t ht
    have hhist := h.tail.termAt_some (by have := (hc.index_of_mem he).1; omega) ht
    rw [hagree e he (by omega)] at hhist
    exact (Option.some.inj hhist).symm
  rcases mergeEntries_tail h.tail hfol hc hprev hone hsnap with
    ⟨hall, hok⟩ | ⟨pre, e, rest, m, rfl, hpre, hle, hlt, hdiff, hcut, hres⟩
  · refine .inl ⟨hall, ?_, hok⟩
    -- The last entry of the request is in the log.
    have hpos := List.length_pos_of_ne_nil hne
    obtain ⟨x, hx, hidx⟩ := hc.exists_index (i := req.prevLogIndex + es.length) (by omega) (by omega)
    have := histTerm_bounds (h.tail.termAt_some (by omega) (hall x hx))
    omega
  · have hbehind : max n.commitIndex n.log.snapMeta.lastIncludedIndex < e.index := by
      by_contra hge
      exact hdiff (hagree e (by simp) (by omega))
    have hidx : e.index = req.prevLogIndex + 1 + pre.length := hc.right.head?_index rfl
    refine .inr ⟨pre, e, rest, m, rfl, hidx, hbehind, hle, hpre, hcut, ?_⟩
    refine hres.imp_right fun hok => ⟨hok, ?_⟩
    refine hcut.tail.append (by simp) ?_ fun x hx =>
      h.positive _ (mem_of_histTerm (hterms x (List.mem_append_right _ hx)))
    rw [List.length_take, show min (e.index - 1) hist.length + 1 = req.prevLogIndex + 1 + pre.length by
      omega]
    exact hc.right

end

theorem acceptEntries_startsOver (src : Asker ι) (h : n.Receives hist req histL) (hover : n.StartsOver req)
    (hne : req.entries ≠ []) : ∃ n', n.acceptEntries src req (n.received req) = n' ∧
      n'.commitIndex = max n.commitIndex (min req.leaderCommit req.entries.length) ∧
      n'.log.contents = n.log.contents ++ n.received req ∧
      n'.log.lastLogIndex = req.entries.length ∧ n'.log.snapMeta = n.log.snapMeta := by
  obtain ⟨hc, -, hlen⟩ := h.received_spec
  obtain ⟨hzero, hmiss, -⟩ := hover
  generalize n.received req = es at hc hlen ⊢
  have hpos := List.length_pos_of_ne_nil hne
  have hes : es ≠ [] := List.ne_nil_of_length_pos (by omega)
  have hmerge : n.mergeEntries es = .ok (n.appendEntries es) := by
    obtain ⟨e, rest, rfl⟩ := List.exists_cons_of_ne_nil hes
    rw [hzero, Nat.zero_add] at hc
    simp [mergeEntries, hc.head?_index rfl, hmiss]
  obtain ⟨n', hn', hci, hlog, -⟩ := acceptEntries_ok src req hmerge
  have hrun := RaftLog.append_running es h.tail.wf.running.1
  have hcont := RaftLog.contents_append h.tail.wf hes
  have hlast := n.log.append_lastLogIndex hes hc
  rw [appendEntries_commitIndex, hzero, Nat.zero_add, hlen] at hci
  rw [hzero, Nat.zero_add, hlen] at hlast
  refine ⟨n', hn', hci, ?_⟩
  rcases hlog with heq | ⟨i, heq⟩ <;> rw [heq]
  · exact ⟨hcont, hlast, RaftLog.append_snapMeta⟩
  · exact ⟨(RaftLog.contents_enqueue_commitIndex hrun i).trans hcont, hlast,
      RaftLog.append_snapMeta⟩

end Receives

end Node

end Raft
