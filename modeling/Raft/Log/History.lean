import Raft.Log.Segments

/-!
# A log and its history

Compaction leaves a log with a tail of the entries it once had and, for the rest,
a snapshot boundary.  `RaftLog.TailOf rl hist` says that `rl` is what is left of a
log whose entries, from index 1 on, carried the terms `hist`.

## Main results

* `TailOf.termAt_some`, `TailOf.termAt_none`: a term lookup answers from the
  history, and fails only behind the end or inside the compacted part.
-/

namespace Raft

variable {ι : Type} {hist : List Nat} {i t : Nat}

/-- The term at an index of a history; indices start at 1. -/
def histTerm (hist : List Nat) (i : Nat) : Option Nat := if i = 0 then none else hist[i - 1]?

theorem histTerm_append_left {hist' : List Nat} (h : histTerm hist i = some t) :
    histTerm (hist ++ hist') i = some t := by
  unfold histTerm at h ⊢
  split_ifs at h ⊢
  have hlt := (List.getElem?_eq_some_iff.mp h).1
  rwa [List.getElem?_append_left hlt]

theorem histTerm_append_of_le {hist' : List Nat} (h : i ≤ hist.length) :
    histTerm (hist ++ hist') i = histTerm hist i := by
  unfold histTerm
  split_ifs with hz
  · rfl
  · rw [List.getElem?_append_left (by omega)]

theorem histTerm_take_of_le {k : Nat} (h : i ≤ k) : histTerm (hist.take k) i = histTerm hist i := by
  unfold histTerm
  split_ifs with hz
  · rfl
  · rw [List.getElem?_take_of_lt (by omega)]

theorem histTerm_bounds (h : histTerm hist i = some t) : 0 < i ∧ i ≤ hist.length := by
  unfold histTerm at h
  split_ifs at h with hz
  have := (List.getElem?_eq_some_iff.mp h).1
  omega

theorem mem_of_histTerm (h : histTerm hist i = some t) : t ∈ hist := by
  unfold histTerm at h
  split_ifs at h
  exact List.mem_of_getElem? h

namespace RaftLog

/-- The log is the tail of one with these terms, down to the snapshot boundary. -/
structure TailOf (rl : RaftLog ι) (hist : List Nat) : Prop where
  wf : rl.Wf
  joined : rl.first ≠ 0 →
    rl.first ≤ rl.snapMeta.lastIncludedIndex + 1 ∧ rl.snapMeta.lastIncludedIndex ≤ rl.last
  length : rl.lastLogIndex = hist.length
  terms : ∀ e ∈ rl.contents, histTerm hist e.index = some e.term
  boundary : 0 < rl.snapMeta.lastIncludedIndex →
    histTerm hist rl.snapMeta.lastIncludedIndex = some rl.snapMeta.lastIncludedTerm
  positive : ∀ t ∈ hist, 0 < t

namespace TailOf

variable {rl : RaftLog ι} {hist : List Nat} {i t : Nat}

section

variable (h : rl.TailOf hist)

include h

theorem lastLogIndex_of_first (hf : rl.first ≠ 0) : rl.last = hist.length ∧ rl.first ≤ rl.last := by
  have hne := h.wf.ne_nil_of_first hf
  have hlen := h.length
  rw [lastLogIndex, if_pos (h.wf.last_pos hne)] at hlen
  exact ⟨hlen, h.wf.first_le_last hne⟩

theorem length_of_first (hz : rl.first = 0) : hist.length = rl.snapMeta.lastIncludedIndex := by
  rw [← h.length, lastLogIndex, h.wf.last_eq_zero (h.wf.first_eq_zero.mp hz)]
  simp

theorem snap_le : rl.snapMeta.lastIncludedIndex ≤ hist.length := by
  rcases eq_or_ne rl.first 0 with hz | hf
  · exact (h.length_of_first hz).ge
  · have := h.lastLogIndex_of_first hf
    have := h.joined hf
    omega

theorem termAt_eq (hf : rl.first ≠ 0) (hlo : rl.first ≤ i) (hhi : i ≤ rl.last) :
    rl.termAt i = histTerm hist i := by
  have hne := h.wf.ne_nil_of_first hf
  have hlast := h.wf.last_add_one hne
  by_cases hsnap : i = rl.snapMeta.lastIncludedIndex
  · rw [termAt, if_neg (by omega), if_pos hsnap, hsnap, h.boundary (by omega)]
  · rw [h.wf.termAt_eq hlo hhi hne hsnap]
    obtain ⟨e, he, rfl⟩ := h.wf.contiguous.exists_index hlo (by omega)
    rw [(h.wf.contiguous.index_of_mem he).2.2, Option.map_some, h.terms e he]

theorem termAt_some (hi : 0 < i) (ht : rl.termAt i = some t) : histTerm hist i = some t := by
  by_cases hin : rl.first ≠ 0 ∧ rl.first ≤ i ∧ i ≤ rl.last
  · rw [← h.termAt_eq hin.1 hin.2.1 hin.2.2, ht]
  · rw [termAt, if_neg (by omega)] at ht
    split_ifs at ht with hsnap hout
    · rw [hsnap, h.boundary (by omega)]
      exact ht
    · omega

theorem termAt_none (hi : 0 < i) (ht : rl.termAt i = none) :
    hist.length < i ∨ i < rl.snapMeta.lastIncludedIndex ∧ (rl.first = 0 ∨ i < rl.first) := by
  have hsnap : i ≠ rl.snapMeta.lastIncludedIndex := by
    rintro heq
    rw [termAt, if_neg (by omega), if_pos heq] at ht
    cases ht
  rcases eq_or_ne rl.first 0 with hz | hf
  · have := h.length_of_first hz
    omega
  · have hlast := h.lastLogIndex_of_first hf
    have hjoined := h.joined hf
    by_cases hin : rl.first ≤ i ∧ i ≤ rl.last
    · obtain ⟨t, ht'⟩ := h.wf.exists_termAt hf hin.1 hin.2
      rw [ht] at ht'
      cases ht'
    · omega

theorem exists_termAt (hsnap : rl.snapMeta.lastIncludedIndex ≤ i) (hi : i ≤ hist.length) :
    ∃ t, rl.termAt i = some t := by
  rcases Nat.eq_zero_or_pos i with rfl | hpos
  · exact ⟨0, by simp [termAt]⟩
  · cases ht : rl.termAt i with
    | some t => exact ⟨t, rfl⟩
    | none =>
      have := h.termAt_none hpos ht
      omega

theorem histTerm_pos (ht : histTerm hist i = some t) : 0 < t :=
  h.positive t (mem_of_histTerm ht)

/-! ## Operations -/

theorem congr {rl' : RaftLog ι} (hwf : rl'.Wf) (hc : rl'.contents = rl.contents)
    (hs : rl'.snapMeta = rl.snapMeta) (hf : rl'.first = rl.first) (hl : rl'.last = rl.last) :
    rl'.TailOf hist := by
  refine ⟨hwf, ?_, ?_, ?_, ?_, h.positive⟩
  · rw [hf, hl, hs]
    exact h.joined
  · rw [← h.length, lastLogIndex, lastLogIndex, hl, hs]
  · rw [hc]
    exact h.terms
  · rw [hs]
    exact h.boundary

theorem enqueue_hardState (hs : HardState ι) : (rl.enqueue (.hardState hs)).TailOf hist :=
  h.congr (h.wf.enqueue_hardState hs).1 (h.wf.enqueue_hardState hs).2 rfl rfl rfl

theorem enqueue_commitIndex (i : Nat) : (rl.enqueue (.commitIndex i)).TailOf hist :=
  h.congr (h.wf.enqueue_commitIndex i).1 (h.wf.enqueue_commitIndex i).2 rfl rfl rfl

end

theorem of_fresh {s : Store ι} (h : Fresh s rl)
    (hjoined : s.entries ≠ [] → s.firstIndex ≤ (snapPosition s).lastIncludedIndex + 1 ∧
      (snapPosition s).lastIncludedIndex ≤ s.lastIndex)
    (hlen : (s.entries.getLast?.map (·.index)).getD (snapPosition s).lastIncludedIndex = hist.length)
    (hterms : ∀ e ∈ s.entries, histTerm hist e.index = some e.term)
    (hboundary : 0 < (snapPosition s).lastIncludedIndex →
      histTerm hist (snapPosition s).lastIncludedIndex = some (snapPosition s).lastIncludedTerm)
    (hpos : ∀ t ∈ hist, 0 < t) : rl.TailOf hist := by
  refine ⟨h.wf, ?_, ?_, h.contents ▸ hterms, h.snapMeta ▸ hboundary, hpos⟩
  · intro hf
    have hne := h.wf.ne_nil_of_first hf
    have hfirst := Store.firstIndex_eq (s := s) (h.contents ▸ h.wf.contiguous) (h.contents ▸ hne)
    have hlast := Store.lastIndex_eq (s := s) (h.contents ▸ h.wf.contiguous) (h.contents ▸ hne)
    have hlast' := h.wf.last_add_one hne
    have := hjoined (h.contents ▸ hne)
    rw [h.snapMeta]
    rw [h.contents] at hlast'
    omega
  · rw [h.wf.lastLogIndex_eq, h.contents, h.snapMeta, hlen]

theorem append [Sized ι] (h : rl.TailOf hist) {es : List (LogEntry ι)} (hne : es ≠ [])
    (hc : Contiguous (hist.length + 1) es) (hpos : ∀ e ∈ es, 0 < e.term) :
    (rl.append es).2.TailOf (hist ++ es.map (·.term)) ∧
      (rl.append es).2.contents = rl.contents ++ es := by
  have hc' : Contiguous (rl.lastLogIndex + 1) es := by rwa [h.length]
  obtain ⟨hwf, hcont⟩ := append_spec h.wf hne hc'
  obtain ⟨e, e', he, he', hhead, hend⟩ := hc.ends hne
  have hfirst : (rl.append es).2.first = if rl.first = 0 then e.index else rl.first := by
    rw [append_eq he he']
  have hlast : (rl.append es).2.last = e'.index := by rw [append_eq he he']
  have hsnap := h.snap_le
  refine ⟨⟨hwf, ?_, ?_, ?_, ?_, ?_⟩, hcont⟩
  · intro _
    rw [hfirst, hlast, append_snapMeta]
    -- an empty log begins right behind its snapshot
    split_ifs with hz
    · have := h.length_of_first hz
      omega
    · have := h.joined hz
      omega
  · have hlen := List.length_pos_of_ne_nil hne
    have hend_pos : 0 < e'.index := by omega
    rw [lastLogIndex, hlast, if_pos hend_pos, List.length_append, List.length_map]
    omega
  · rw [hcont]
    refine List.forall_mem_append.mpr ⟨fun x hx => histTerm_append_left (h.terms x hx), fun x hx => ?_⟩
    obtain ⟨hlo, -, hget⟩ := hc.index_of_mem hx
    rw [histTerm, if_neg (by omega), List.getElem?_append_right (by omega), List.getElem?_map,
      show x.index - 1 - hist.length = x.index - (hist.length + 1) by omega, hget]
    rfl
  · rw [append_snapMeta]
    intro hpos
    exact histTerm_append_left (h.boundary hpos)
  · exact List.forall_mem_append.mpr ⟨h.positive, List.forall_mem_map.mpr hpos⟩

theorem exists_cut [Sized ι] (h : rl.TailOf hist) (hf : rl.first ≠ 0)
    (hlo : rl.snapMeta.lastIncludedIndex < i) (hlo' : rl.first ≤ i) (hhi : i ≤ rl.last + 1) :
    ∃ rl', rl.truncateSuffix i = some rl' ∧ rl'.TailOf (hist.take (i - 1)) ∧
      rl'.contents = rl.contents.filter (·.index < i) ∧ rl'.snapMeta = rl.snapMeta := by
  obtain ⟨rl', hrl', hcut⟩ := exists_suffixCut h.wf hf hlo' hhi
  obtain ⟨hwf, hcont⟩ := hcut.spec h.wf hf hlo' hhi
  have hlen := h.lastLogIndex_of_first hf
  have hjoined := h.joined hf
  rw [← h.wf.contiguous.filter_lt] at hcont
  refine ⟨rl', hrl', ⟨hwf, ?_, ?_, ?_, ?_, ?_⟩, hcont, hcut.snapMeta⟩
  · rw [hcut.first, hcut.last, hcut.snapMeta]
    split_ifs with heq
    · simp
    · omega
  · rw [lastLogIndex, hcut.last, hcut.snapMeta, List.length_take]
    split_ifs <;> omega
  · intro e he
    rw [hcont, List.mem_filter, decide_eq_true_eq] at he
    rw [histTerm_take_of_le (by omega)]
    exact h.terms e he.1
  · rw [hcut.snapMeta]
    intro hpos
    rw [histTerm_take_of_le (by omega)]
    exact h.boundary hpos
  · intro t ht
    exact h.positive t (List.mem_of_mem_take ht)

end TailOf

end RaftLog

end Raft
