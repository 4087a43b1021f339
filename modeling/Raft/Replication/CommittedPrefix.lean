import Raft.Node.Loop
import Raft.Replication.Merge

/-!
# The committed prefix

A request from the leader of the follower's own term must not disturb what the follower
knows to be committed.  Two kinds of request do, and no others.  One starts at index 1
although the follower has compacted that entry away, so that the follower takes it for
missing.  The other is an empty request whose previous entry neither side can describe: the
follower commits up to an entry that it does not have.
-/

namespace Raft

variable {ι : Type}

namespace Node

/-- The committed entries are there, and the log reaches the commit index and the snapshot. -/
structure PrefixKept (n n' : Node ι) : Prop where
  entries : ∀ e ∈ n.log.contents, e.index ≤ n.commitIndex → e ∈ n'.log.contents
  commit : n'.commitIndex ≤ n'.log.lastLogIndex
  snapshot : n'.log.snapMeta.lastIncludedIndex ≤ n'.log.lastLogIndex
  ordered : ∃ f, Contiguous f n'.log.contents

variable {hist : List Nat} {n n' : Node ι} {req : AppendEntriesRequest ι}

theorem PrefixKept.of_tail (h : n'.log.TailOf hist) (hcommit : n'.commitIndex ≤ hist.length)
    (hentries : ∀ e ∈ n.log.contents, e.index ≤ n.commitIndex → e ∈ n'.log.contents) :
    n.PrefixKept n' :=
  ⟨hentries, h.length ▸ hcommit, h.length ▸ h.snap_le, _, h.wf.contiguous⟩

theorem PrefixKept.congr {m : Node ι} (h : m.PrefixKept n') (hlog : m.log = n.log)
    (hcommit : m.commitIndex = n.commitIndex) : n.PrefixKept n' :=
  ⟨fun e he hle => h.entries e (hlog ▸ he) (hcommit ▸ hle), h.commit, h.snapshot, h.ordered⟩

theorem PrefixKept.of_refused {src : Asker ι} (ht : n.log.TailOf hist)
    (hcommit : n.commitIndex ≤ hist.length) (h : n.Refused n' src req) : n.PrefixKept n' := by
  rcases h.log with hlog | ⟨hs, hlog⟩
  · refine .of_tail (hlog ▸ ht) (h.commitIndex ▸ hcommit) fun e he _ => ?_
    rwa [hlog]
  · refine .of_tail (hlog ▸ ht.enqueue_hardState hs) (h.commitIndex ▸ hcommit) fun e he _ => ?_
    rwa [hlog, (ht.wf.enqueue_hardState hs).2]

/-- The request goes back to index 1, which the follower has compacted away, and does not make up
for what it has. -/
def Restarts (n : Node ι) (req : AppendEntriesRequest ι) : Prop :=
  n.StartsOver req ∧ req.entries ≠ [] ∧ n.backlogFull req.entries = false ∧
    (n.log.first ≠ 0 ∨
      req.entries.length < max n.commitIndex n.log.snapMeta.lastIncludedIndex)

/-- Neither side can describe the previous entry of an empty request that commits more. -/
def Overcommits (n : Node ι) (req : AppendEntriesRequest ι) : Prop :=
  req.entries = [] ∧ 0 < req.prevLogIndex ∧ req.prevLogTerm = 0 ∧
    n.log.termAt req.prevLogIndex = none ∧
    n.log.lastLogIndex < min req.leaderCommit req.prevLogIndex

variable [DecidableEq ι] [Sized ι]

theorem PrefixKept.of_accepted {wm : Nat × Node ι} {src : Asker ι} {es : List (LogEntry ι)}
    (hok : n.mergeEntries es = .ok wm) (ht : wm.2.log.TailOf hist)
    (hcommit : wm.2.commitIndex ≤ hist.length)
    (hnew : min req.leaderCommit (req.prevLogIndex + es.length) ≤ hist.length)
    (hentries : ∀ e ∈ n.log.contents, e.index ≤ n.commitIndex → e ∈ wm.2.log.contents) :
    n.PrefixKept (n.acceptEntries src req es) := by
  obtain ⟨n', hn', hci, hlog, -⟩ := acceptEntries_ok src req hok
  rw [hn']
  rcases hlog with hlog | ⟨i, hlog⟩
  · refine .of_tail (hlog ▸ ht) (by rw [hci]; omega) fun e he hle => ?_
    rw [hlog]
    exact hentries e he hle
  · refine .of_tail (hlog ▸ ht.enqueue_commitIndex i) (by rw [hci]; omega) fun e he hle => ?_
    rw [hlog, (ht.wf.enqueue_commitIndex i).2]
    exact hentries e he hle

section Accepted

variable {n : Node ι} {hist histL : List Nat} {src : Asker ι} {req : AppendEntriesRequest ι}

section

variable (h : n.Receives hist req histL)

include h

theorem prefixKept_empty_iff (hadm : n.Admits req) (hnil : req.entries = []) :
    n.PrefixKept (n.acceptEntries src req (n.received req)) ↔ ¬ n.Overcommits req := by
  have hes := n.received_eq_nil hnil
  have hmerge : n.mergeEntries (n.received req) = .ok (0, n) := by rw [hes]; rfl
  have hbound := h.commit
  have hlen := h.tail.length
  constructor
  · rintro hkept ⟨-, -, -, -, hover⟩
    obtain ⟨n', hn', hci, hlog, -⟩ := acceptEntries_ok src req hmerge
    have hle := hkept.commit
    have hlast : n'.log.lastLogIndex = n.log.lastLogIndex := by
      rcases hlog with heq | ⟨i, heq⟩ <;> rw [heq]
      rfl
    rw [hn', hci, hlast, hes, List.length_nil, Nat.add_zero] at hle
    omega
  · intro hno
    refine .of_accepted hmerge h.tail hbound ?_ fun e he _ => he
    rw [hes, List.length_nil, Nat.add_zero]
    -- else the request is about an index the log lacks, and both terms read as 0
    by_contra hlt
    have hpos : 0 < req.prevLogIndex := by omega
    have hmiss : n.log.termAt req.prevLogIndex = none := by
      by_contra hsome
      obtain ⟨t, ht⟩ := Option.ne_none_iff_exists'.mp hsome
      have := histTerm_bounds (h.tail.termAt_some hpos ht)
      omega
    have hterm := (prevConflict_eq_none_iff n req).mp hadm.1
    rw [hmiss, Option.getD_none] at hterm
    exact hno ⟨hnil, hpos, by omega, hmiss, by omega⟩

theorem prefixKept_startsOver_iff (hover : n.StartsOver req) (hne : req.entries ≠ []) :
    n.PrefixKept (n.acceptEntries src req (n.received req)) ↔ n.log.first = 0 ∧
      max n.commitIndex n.log.snapMeta.lastIncludedIndex ≤ req.entries.length := by
  obtain ⟨n', hn', hci, hcont, hlast, hsnap⟩ := h.acceptEntries_startsOver src hover hne
  obtain ⟨hc, -, hlen⟩ := h.received_spec
  rw [hover.1, Nat.zero_add] at hc
  have hpos := List.length_pos_of_ne_nil hne
  obtain ⟨e, he⟩ : ∃ e, (n.received req).head? = some e :=
    ⟨_, List.head?_eq_some_head (List.ne_nil_of_length_pos (by omega))⟩
  rw [hn']
  constructor
  · intro hkept
    refine ⟨?_, ?_⟩
    · -- entries from index 1 on would stand behind others
      by_contra hf
      obtain ⟨f, hord⟩ := hkept.ordered
      rw [hcont] at hord
      have hcne := h.tail.wf.ne_nil_of_first hf
      have hclen := List.length_pos_of_ne_nil hcne
      obtain ⟨x, hx⟩ : ∃ x, n.log.contents.head? = some x := ⟨_, List.head?_eq_some_head hcne⟩
      have := hord.right.head?_index he
      have := hc.head?_index he
      have := h.tail.wf.contiguous.head?_index hx
      have := hord.left.head?_index hx
      omega
    · have hle := hkept.commit
      have hle' := hkept.snapshot
      rw [hsnap] at hle'
      omega
  · rintro ⟨hz, hle⟩
    have hnil := h.tail.wf.first_eq_zero.mp hz
    refine ⟨fun e he _ => by simp [hnil] at he, ?_, ?_, 1, ?_⟩
    · omega
    · rw [hsnap, hlast]
      omega
    · rwa [hcont, hnil]

theorem prefixKept_entries (hadm : n.Admits req) (hfol : n.state ≠ .leader) (hne : req.entries ≠ [])
    (hover : ¬ n.StartsOver req) : n.PrefixKept (n.acceptEntries src req (n.received req)) := by
  have hbound := h.commit
  rcases h.merge hadm hfol hne hover with
    ⟨-, hin, hok⟩ | ⟨pre, e, rest, m, hes, hidx, hbehind, hle, -, hcut, hres⟩
  · exact .of_accepted hok h.tail hbound (by omega) fun e he _ => he
  · -- what is cut lies behind the commit index
    have hkeep : ∀ x ∈ n.log.contents, x.index ≤ n.commitIndex → x ∈ m.log.contents := by
      intro x hx hxle
      rw [hcut.contents]
      exact List.mem_filter.mpr ⟨hx, decide_eq_true (by omega)⟩
    have hcut_len : (hist.take (e.index - 1)).length = e.index - 1 := by
      rw [List.length_take]
      omega
    have hcommit : m.commitIndex = n.commitIndex := by
      obtain ⟨log, mem, rfl⟩ := hcut.frame
      rfl
    rcases hres with herr | ⟨hok, htail, hcont⟩
    · have hm : n.acceptEntries src req (n.received req) = m := by simp only [acceptEntries, herr]
      rw [hm]
      exact .of_tail hcut.tail (by omega) hkeep
    · have hlen' := congrArg List.length hes
      rw [List.length_append] at hlen'
      refine .of_accepted hok htail ?_ ?_ fun x hx hxle => ?_
      · rw [appendEntries_commitIndex, List.length_append]
        omega
      · rw [List.length_append, List.length_map]
        omega
      · rw [hcont]
        exact List.mem_append_left _ (hkeep x hx hxle)

end

end Accepted

theorem handleAppendEntries_same (hterm : req.term = n.currentTerm) (src : Asker ι) :
    (n.Admits req ∧ ∃ m : Node ι, m.log = n.log ∧ m.commitIndex = n.commitIndex ∧ m.Admits req ∧
        m.state ≠ .leader ∧
        n.handleAppendEntries src req = m.acceptEntries src req (m.received req)) ∨
      ¬ n.Admits req ∧ n.Refused (n.handleAppendEntries src req) src req := by
  have hlog := becomeFollower_same n (some req.leaderID)
  obtain ⟨-, hcommit, hcfg, hstate, -, -⟩ := becomeFollower_frame n n.currentTerm (some req.leaderID)
  have hcases := handleAppendEntries_cases n src req
  rw [hterm] at hcases
  generalize n.becomeFollower n.currentTerm (some req.leaderID) = m at *
  have hadm : m.Admits req ↔ n.Admits req := by
    rw [Admits, Admits, prevConflict_congr hlog, backlogFull_congr hlog hcfg]
  rcases hcases with ⟨-, hm, heq⟩ | ⟨hm, href⟩
  · exact .inl ⟨hadm.mp hm, m, hlog, hcommit, hm, by simp [hstate], heq⟩
  · exact .inr ⟨fun hn => hm le_rfl (hadm.mpr hn), href⟩

/-- **The committed prefix survives** every request of the follower's term but the two kinds
above. -/
theorem prefixKept_iff {n : Node ι} {hist histL : List Nat} {req : AppendEntriesRequest ι}
    (h : n.Receives hist req histL) (hterm : req.term = n.currentTerm) (src : Asker ι) :
    n.PrefixKept (n.handleAppendEntries src req) ↔ ¬ n.Restarts req ∧ ¬ n.Overcommits req := by
  rcases handleAppendEntries_same hterm src with
    ⟨hadm, m, hlog, hcommit, hadm', hfol, heq⟩ | ⟨hadm, href⟩
  · have hm := h.congr (.inl hlog) hcommit
    rw [heq, show n.PrefixKept _ ↔ m.PrefixKept _ from
      ⟨fun hk => hk.congr hlog.symm hcommit.symm, fun hk => hk.congr hlog hcommit⟩]
    by_cases hnil : req.entries = []
    · rw [prefixKept_empty_iff hm hadm' hnil, Overcommits, Overcommits, hlog]
      exact (and_iff_right fun hr => hr.2.1 hnil).symm
    · by_cases hover : m.StartsOver req
      · rw [prefixKept_startsOver_iff hm hover hnil, hlog, hcommit]
        rw [StartsOver, hlog] at hover
        constructor
        · rintro ⟨hz, hle⟩
          exact ⟨fun hr => by rcases hr.2.2.2 with hf | hlt <;> omega, fun ho => hnil ho.1⟩
        · rintro ⟨hr, -⟩
          by_contra hcon
          exact hr ⟨hover, hnil, hadm.2, by omega⟩
      · refine iff_of_true (prefixKept_entries hm hadm' hfol hnil hover)
          ⟨fun hr => hover ?_, fun ho => hnil ho.1⟩
        rw [StartsOver, hlog]
        exact hr.1
  · -- Both kinds of request are admitted.
    refine iff_of_true (.of_refused h.tail h.commit href) ⟨fun hr => hadm ⟨?_, hr.2.2.1⟩,
      fun ho => hadm ⟨?_, ?_⟩⟩
    · exact (prevConflict_eq_none_iff n req).mpr (.inl hr.1.1)
    · rw [prevConflict_eq_none_iff, ho.2.2.2.1, ho.2.2.1]
      exact .inr rfl
    · simp [backlogFull, ho.1]

section Compacted

def sender : Node Nat :=
  { ofStore [1, 2, 3] 1 ⟨⟨1, some 1⟩, [⟨1, 1, .user [1]⟩], none, 0⟩ rfl with
    state := .leader
    nextIndex := fun _ => some 1 }

def compacted : Node Nat :=
  ofStore [1, 2, 3] 2 ⟨⟨1, some 1⟩, [], some ⟨⟨2, 1⟩, [], none, none, []⟩, 0⟩ rfl

theorem compacted_receives {req : AppendEntriesRequest Nat} (hb : sender.Builds 2 req) :
    compacted.Receives [1, 1] req [1, 1] := by
  have hfresh : RaftLog.Fresh sender.log.w.storage sender.log :=
    .of_new ⟨Contiguous.singleton _, by decide⟩ rfl
  have hfresh' : RaftLog.Fresh compacted.log.w.storage compacted.log :=
    .of_new ⟨Contiguous.nil _, by decide⟩ rfl
  refine ⟨.of_fresh hfresh' ?_ ?_ ?_ ?_ ?_, ?_, ⟨sender, 2, [1], hb,
    .of_fresh hfresh ?_ ?_ ?_ ?_ ?_, .of_fresh hfresh, ?_, ?_⟩, ?_, fun i _ => rfl⟩
  all_goals decide

/-- The first request is delivered again: node 2's log now ends at index 1, below its own
snapshot. -/
theorem not_prefixKept_duplicate :
    let req := { sender.emptyAppend 2 0 with entries := [⟨1, 1, .user [1]⟩] }
    sender.Builds 2 req ∧ compacted.Receives [1, 1] req [1, 1] ∧
      req.term = compacted.currentTerm ∧
      ¬ compacted.PrefixKept (compacted.handleAppendEntries sender.asker req) := by
  intro req
  have hb : sender.Builds 2 req := .entries _ (by decide) (by decide)
  refine ⟨hb, compacted_receives hb, rfl, fun hkept => ?_⟩
  exact absurd hkept.snapshot (by decide)

/-- A heartbeat of the same leader does no harm. -/
theorem prefixKept_heartbeat :
    compacted.PrefixKept (compacted.handleAppendEntries sender.asker (sender.emptyAppend 2 0)) :=
  (prefixKept_iff (compacted_receives (.empty 0)) rfl _).mpr
    ⟨fun h => absurd rfl h.2.1, fun h => absurd h.2.1 (by decide)⟩

end Compacted

end Node

end Raft
