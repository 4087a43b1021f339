import Raft.Log.Runs

/-!
# The contents of the log

What the overlay stands for: the entries storage will hold once everything
queued has been executed.  `RaftLog.Wf` says that the cached positions and the
run index describe exactly those entries and that storage accepts every queued
operation; each operation of the overlay is then a simple change of the
contents.

## Main results

* `append_spec`, `truncatePrefix_spec`: the operations append to and shorten the contents.
* `termAt_eq`: a term lookup inside the log finds the term of the entry.
-/

namespace Raft

variable {ι : Type}

namespace Store

/-- The stored entries are contiguous and start at a positive index. -/
structure Wf (s : Store ι) : Prop where
  contiguous : Contiguous s.firstIndex s.entries
  pos : s.entries ≠ [] → 0 < s.firstIndex

variable {f : Nat} {s : Store ι}

theorem wf_of_contiguous (hc : Contiguous f s.entries) (hf : s.entries ≠ [] → 0 < f) : s.Wf := by
  cases he : s.entries.head? with
  | none =>
    have hnil : s.entries = [] := List.head?_eq_none_iff.mp he
    exact ⟨hnil ▸ Contiguous.nil _, fun h => absurd hnil h⟩
  | some e =>
    have hidx : s.firstIndex = f := by
      rw [firstIndex, he]
      exact hc.head?_index he
    exact ⟨hidx ▸ hc, fun h => hidx ▸ hf h⟩

theorem empty_wf : (Store.empty : Store ι).Wf :=
  ⟨fun k e hk => (by cases hk), fun hne => absurd rfl hne⟩

section

variable (hc : Contiguous f s.entries)

include hc

theorem firstIndex_eq (hne : s.entries ≠ []) : s.firstIndex = f := by
  obtain ⟨e, he⟩ : ∃ e, s.entries.head? = some e := ⟨_, List.head?_eq_some_head hne⟩
  rw [firstIndex, he]
  exact hc.head?_index he

theorem lastIndex_eq (hne : s.entries ≠ []) : s.lastIndex + 1 = f + s.entries.length := by
  obtain ⟨e, he⟩ : ∃ e, s.entries.getLast? = some e := ⟨_, List.getLast?_eq_some_getLast hne⟩
  rw [lastIndex, he]
  exact hc.getLast?_index he

theorem truncateSuffix_eq {i : Nat} (hi : f ≤ i) :
    s.truncateSuffix i = some { s with entries := s.entries.take (i - f) } := by
  unfold truncateSuffix
  by_cases hne : s.entries = []
  · rw [if_pos hne, hne, List.take_nil, ← hne]
  · have hfirst := firstIndex_eq hc hne
    have hlast := lastIndex_eq hc hne
    rw [if_neg hne, hfirst, if_neg (by omega)]
    split_ifs with h₁ h₂
    · simp [h₁]
    · rw [List.take_of_length_le (by omega)]
    · rfl

end

theorem truncatePrefix_eq (i : Nat) (hc : Contiguous f s.entries) :
    s.truncatePrefix i = { s with entries := s.entries.drop (i - f) } := by
  unfold truncatePrefix
  by_cases hne : s.entries = []
  · rw [if_pos hne, hne, List.drop_nil, ← hne]
  · have hfirst := firstIndex_eq hc hne
    have hlast := lastIndex_eq hc hne
    rw [if_neg hne, hfirst]
    split_ifs with h₁ h₂
    · simp [Nat.sub_eq_zero_of_le h₁]
    · rw [List.drop_of_length_le (by omega)]
    · rfl

theorem getLogEntries_all (h : s.Wf) (hlast : 0 < s.lastIndex) :
    s.getLogEntries s.firstIndex (s.lastIndex + 1) = some s.entries := by
  have hne : s.entries ≠ [] := by
    intro hnil
    simp [lastIndex, hnil] at hlast
  have hlen := lastIndex_eq h.contiguous hne
  have := List.length_pos_of_ne_nil hne
  unfold getLogEntries
  rw [if_neg (by omega), if_neg hne, if_neg (by omega), Nat.sub_self, List.drop_zero,
    List.take_of_length_le (by omega)]

theorem exec_saveSnapshot (commits : Bool) (s : Store ι) (snap : Snapshot ι) (k : WriteKind ι) :
    (s.saveSnapshot snap).exec commits k = (s.exec commits k).map (·.saveSnapshot snap) := by
  have hentries : (s.saveSnapshot snap).entries = s.entries := rfl
  have hfirst : (s.saveSnapshot snap).firstIndex = s.firstIndex := rfl
  have hlast : (s.saveSnapshot snap).lastIndex = s.lastIndex := rfl
  cases k with
  | append es => rfl
  | truncateSuffix i =>
    simp only [exec, truncateSuffix, hentries, hfirst, hlast]
    split_ifs <;> rfl
  | truncatePrefix i =>
    simp only [exec, truncatePrefix, hentries, hfirst, hlast]
    split_ifs <;> rfl
  | hardState => rfl
  | commitIndex i =>
    cases commits <;> rfl

end Store

theorem StorageWriter.execAll_saveSnapshot (commits : Bool) (s : Store ι) (snap : Snapshot ι)
    (ops : List (WriteOp ι)) :
    execAll commits (s.saveSnapshot snap) ops =
      (execAll commits s ops).map (·.saveSnapshot snap) := by
  induction ops generalizing s with
  | nil => rfl
  | cons op rest ih =>
    rw [execAll_cons, execAll_cons, Store.exec_saveSnapshot]
    cases s.exec commits op.kind with
    | none => rfl
    | some s' => simpa using ih s'

theorem StorageWriter.execAll_snap {commits : Bool} {s s' : Store ι} {ops : List (WriteOp ι)}
    (h : execAll commits s ops = some s') : s'.snap = s.snap := by
  have exec_snap : ∀ {s s' : Store ι} {kind : WriteKind ι}, s.exec commits kind = some s' →
      s'.snap = s.snap := by
    intro s s' kind h
    cases kind with
    | append es | hardState hs => cases h; rfl
    | truncatePrefix i =>
      cases h
      unfold Store.truncatePrefix
      split_ifs <;> rfl
    | commitIndex i =>
      cases h
      split_ifs <;> rfl
    | truncateSuffix i =>
      simp only [Store.exec, Store.truncateSuffix] at h
      split_ifs at h <;> (cases h; rfl)
  induction ops generalizing s with
  | nil => rw [Option.some.inj h]
  | cons op ops ih =>
    obtain ⟨s₁, hs₁, hrest⟩ := Option.bind_eq_some_iff.mp h
    exact (ih hrest).trans (exec_snap hs₁)

namespace RaftLog

/-- The store once everything queued has been executed. -/
def settled (rl : RaftLog ι) : Option (Store ι) :=
  StorageWriter.execAll rl.w.commits rl.w.storage rl.w.queue

/-- The store once the first `k` queued operations have been executed. -/
def stage (rl : RaftLog ι) (k : Nat) : Option (Store ι) :=
  StorageWriter.execAll rl.w.commits rl.w.storage (rl.w.queue.take k)

def contents (rl : RaftLog ι) : List (LogEntry ι) :=
  match rl.settled with
  | some s => s.entries
  | none => []

def kept (rl : RaftLog ι) (k : Nat) : List (LogEntry ι) :=
  match rl.stage k with
  | some s => s.entries
  | none => []

/-- The writer runs, storage accepts the queue, and cached positions and runs describe the
contents. -/
structure Wf (rl : RaftLog ι) : Prop where
  running : rl.w.closed = false ∧ rl.w.failed = false
  stages : ∀ k, ∃ s, rl.stage k = some s ∧ s.Wf
  contiguous : Contiguous rl.first rl.contents
  first_eq_zero : rl.first = 0 ↔ rl.contents = []
  last_eq_zero : rl.contents = [] → rl.last = 0
  last_add_one : rl.contents ≠ [] → rl.last + 1 = rl.first + rl.contents.length
  runs_eq : rl.runs = runsOf rl.contents

theorem stage_of_length_le (rl : RaftLog ι) {k : Nat} (h : rl.w.queue.length ≤ k) :
    rl.stage k = rl.settled := by
  rw [stage, settled, List.take_of_length_le h]

variable {rl rl' : RaftLog ι} {s : Store ι} {i : Nat}

theorem contents_of_settled (h : rl.settled = some s) : rl.contents = s.entries := by
  rw [contents, h]

namespace Wf

variable {rl : RaftLog ι}

section

variable (h : rl.Wf)

include h

theorem settles : ∃ s, rl.settled = some s ∧ s.Wf ∧ rl.contents = s.entries := by
  obtain ⟨s, hs, hwf⟩ := h.stages rl.w.queue.length
  rw [stage_of_length_le rl le_rfl] at hs
  exact ⟨s, hs, hwf, contents_of_settled hs⟩

section

variable (hne : rl.contents ≠ [])

include hne

theorem first_pos : 0 < rl.first := by
  have := h.first_eq_zero.not.mpr hne
  omega

theorem last_pos : 0 < rl.last := by
  have := h.last_add_one hne
  have := h.first_pos hne
  have := List.length_pos_of_ne_nil hne
  omega

theorem first_le_last : rl.first ≤ rl.last := by
  have := h.last_add_one hne
  have := List.length_pos_of_ne_nil hne
  omega

end

theorem ne_nil_of_first (hf : rl.first ≠ 0) : rl.contents ≠ [] :=
  h.first_eq_zero.not.mp hf

theorem lastLogIndex_eq :
    rl.lastLogIndex =
      (rl.contents.getLast?.map (·.index)).getD rl.snapMeta.lastIncludedIndex := by
  unfold lastLogIndex
  cases hl : rl.contents.getLast? with
  | none =>
    rw [h.last_eq_zero (List.getLast?_eq_none_iff.mp hl)]
    simp
  | some e =>
    have hne : rl.contents ≠ [] := by
      intro hnil
      simp [hnil] at hl
    have hidx := h.contiguous.getLast?_index hl
    have hlast := h.last_add_one hne
    rw [if_pos (h.last_pos hne)]
    simp only [Option.map_some, Option.getD_some]
    omega

/-- **A term lookup inside the log** finds the term of the entry, or of the snapshot at its
boundary. -/
theorem termAt_eq (hlo : rl.first ≤ i) (hhi : i ≤ rl.last) (hne : rl.contents ≠ [])
    (hsnap : i ≠ rl.snapMeta.lastIncludedIndex) :
    rl.termAt i = rl.contents[i - rl.first]?.map (·.term) := by
  have hfirst := h.first_pos hne
  have hlast := h.last_add_one hne
  rw [termAt, if_neg (by omega), if_neg hsnap, if_neg (by omega), h.runs_eq,
    runFor_runsOf h.contiguous hlo (by omega)]

end

end Wf

theorem Wf.of_contents_eq (h : rl.Wf) (hrun : rl'.w.closed = false ∧ rl'.w.failed = false)
    (hstages : ∀ k, ∃ s, rl'.stage k = some s ∧ s.Wf) (hc : rl'.contents = rl.contents)
    (hf : rl'.first = rl.first) (hl : rl'.last = rl.last) (hr : rl'.runs = rl.runs) : rl'.Wf := by
  refine ⟨hrun, hstages, ?_, ?_, ?_, ?_, ?_⟩
  · rw [hf, hc]
    exact h.contiguous
  · rw [hf, hc]
    exact h.first_eq_zero
  · rw [hl, hc]
    exact h.last_eq_zero
  · rw [hl, hf, hc]
    exact h.last_add_one
  · rw [hr, hc]
    exact h.runs_eq

theorem contents_congr (hw : rl'.w = rl.w) : rl'.contents = rl.contents := by
  rw [contents, contents, settled, settled, hw]

theorem Wf.congr (h : rl.Wf) (hw : rl'.w = rl.w) (hf : rl'.first = rl.first)
    (hl : rl'.last = rl.last) (hr : rl'.runs = rl.runs) : rl'.Wf := by
  refine h.of_contents_eq (hw ▸ h.running) ?_ (contents_congr hw) hf hl hr
  intro k
  rw [stage, hw]
  exact h.stages k

section Enqueue

variable {rl rl' : RaftLog ι} {kind : WriteKind ι} {op : WriteOp ι}

@[simp] theorem enqueue_segs : (rl.enqueue kind).segs = rl.segs := rfl

theorem queue_enqueue {w : StorageWriter ι} (h : w.closed = false) :
    w.enqueue op = { w with queue := w.queue ++ [op] } := by
  simp [StorageWriter.enqueue, h]

theorem storage_of_enqueue (hopen : rl.w.closed = false) (hw : rl'.w = rl.w.enqueue op) :
    rl'.w.storage = rl.w.storage := by
  rw [hw, queue_enqueue hopen]

theorem settled_of_enqueue (h : rl.w.closed = false) (hw : rl'.w = rl.w.enqueue op) :
    rl'.settled = rl.settled.bind (·.exec rl.w.commits op.kind) := by
  rw [settled, settled, hw, queue_enqueue h, StorageWriter.execAll_append]
  congr 1
  funext s
  simp [StorageWriter.execAll_cons]

theorem stage_of_enqueue (h : rl.w.closed = false) (hw : rl'.w = rl.w.enqueue op) (k : Nat) :
    rl'.stage k = if k ≤ rl.w.queue.length then rl.stage k else rl'.settled := by
  split_ifs with hk
  · rw [stage, stage, hw, queue_enqueue h, List.take_append_of_le_length hk]
  · rw [stage_of_length_le]
    rw [hw, queue_enqueue h]
    simp
    omega

theorem Wf.of_enqueue (h : rl.Wf) (hw : rl'.w = rl.w.enqueue op) {s' : Store ι}
    {es : List (LogEntry ι)} (hs : rl.settled = some s)
    (hexec : s.exec rl.w.commits op.kind = some s') (hes : s'.entries = es)
    (hcont : Contiguous rl'.first es) (hfirst : rl'.first = 0 ↔ es = [])
    (hzero : es = [] → rl'.last = 0) (hlast : es ≠ [] → rl'.last + 1 = rl'.first + es.length)
    (hruns : rl'.runs = runsOf es) : rl'.Wf ∧ rl'.contents = es := by
  subst hes
  have hclosed := h.running.1
  have hsettled : rl'.settled = some s' := by
    rw [settled_of_enqueue hclosed hw, hs, Option.bind_some, hexec]
  have hcontents := contents_of_settled hsettled
  have hwf' : s'.Wf := Store.wf_of_contiguous hcont fun hne => by
    have := hfirst.not.mpr hne
    omega
  refine ⟨⟨?_, ?_, ?_, ?_, ?_, ?_, ?_⟩, hcontents⟩
  · rw [hw, queue_enqueue hclosed]
    exact h.running
  · intro k
    rw [stage_of_enqueue hclosed hw]
    split_ifs with hk
    · exact h.stages k
    · exact ⟨s', hsettled, hwf'⟩
  all_goals rwa [hcontents]

theorem contents_enqueue_commitIndex (h : rl.w.closed = false) (i : Nat) :
    (rl.enqueue (.commitIndex i)).contents = rl.contents := by
  have hsettled : (rl.enqueue (.commitIndex i)).settled = _ := settled_of_enqueue h rfl
  cases hs : rl.settled with
  | none =>
    simp only [contents, hsettled, hs, Option.bind_none]
  | some s =>
    simp only [contents, hsettled, hs, Option.bind_some, Store.exec]
    split_ifs <;> rfl

theorem Wf.enqueue_frame (h : rl.Wf)
    (hk : ∀ s : Store ι, ∃ s', s.exec rl.w.commits kind = some s' ∧ s'.entries = s.entries) :
    (rl.enqueue kind).Wf ∧ (rl.enqueue kind).contents = rl.contents := by
  obtain ⟨s, hs, -, hcont⟩ := h.settles
  obtain ⟨s', hexec, hentries⟩ := hk s
  exact h.of_enqueue rfl hs hexec (hentries.trans hcont.symm)
    h.contiguous h.first_eq_zero h.last_eq_zero h.last_add_one h.runs_eq

theorem Wf.enqueue_hardState (h : rl.Wf) (hs : HardState ι) :
    (rl.enqueue (.hardState hs)).Wf ∧ (rl.enqueue (.hardState hs)).contents = rl.contents :=
  h.enqueue_frame fun s => ⟨s.saveHardState hs, rfl, rfl⟩

theorem Wf.enqueue_commitIndex (h : rl.Wf) (i : Nat) :
    (rl.enqueue (.commitIndex i)).Wf ∧ (rl.enqueue (.commitIndex i)).contents = rl.contents :=
  h.enqueue_frame fun s => ⟨_, rfl, by split_ifs <;> rfl⟩

end Enqueue

section Append

variable [Sized ι] {rl : RaftLog ι} {es : List (LogEntry ι)}

theorem append_eq {e e' : LogEntry ι} (he : es.head? = some e) (he' : es.getLast? = some e') :
    rl.append es = (rl.nextSeq + 1, { rl with
      segs := rl.segs ++ [⟨rl.nextSeq + 1, es⟩]
      unstableBytes := rl.unstableBytes + commandBytes es
      first := if rl.first = 0 then e.index else rl.first
      runs := extendRuns rl.runs es
      last := e'.index
      lastTerm := e'.term
      queuedDurable := e'.index
      nextSeq := rl.nextSeq + 1
      w := rl.w.enqueue ⟨rl.nextSeq + 1, .append es, e'.index⟩ }) := by
  simp [append, he, he', enqueue]

theorem contents_append (h : rl.Wf) (hne : es ≠ []) :
    (rl.append es).2.contents = rl.contents ++ es := by
  obtain ⟨e, e', he, he'⟩ := exists_ends hne
  obtain ⟨s, hs, -, hcont⟩ := h.settles
  have hsettled : (rl.append es).2.settled = some (s.appendLogEntries es) := by
    rw [append_eq he he', settled_of_enqueue h.running.1 rfl, hs]
    rfl
  rw [contents_of_settled hsettled, hcont]
  rfl

theorem append_running (es : List (LogEntry ι)) (h : rl.w.closed = false) : (rl.append es).2.w.closed = false := by
  unfold append
  split
  · simp [enqueue, queue_enqueue h, h]
  · exact h

theorem append_lastLogIndex (rl : RaftLog ι) {f : Nat} (hne : es ≠ []) (hc : Contiguous (f + 1) es) :
    (rl.append es).2.lastLogIndex = f + es.length := by
  obtain ⟨e, e', he, he', -, hidx⟩ := hc.ends hne
  have hlen := List.length_pos_of_ne_nil hne
  have hpos : 0 < e'.index := by omega
  rw [append_eq he he', lastLogIndex, if_pos hpos]
  simp only
  omega

@[simp] theorem append_snapMeta : (rl.append es).2.snapMeta = rl.snapMeta := by
  unfold append
  split <;> rfl

/-- **Appending** puts entries that continue the log behind its contents. -/
theorem append_spec (h : rl.Wf) (hne : es ≠ []) (hc : Contiguous (rl.lastLogIndex + 1) es) :
    (rl.append es).2.Wf ∧ (rl.append es).2.contents = rl.contents ++ es := by
  obtain ⟨e, e', he, he', hhead, hlastidx⟩ := hc.ends hne
  obtain ⟨s, hs, -, hcont⟩ := h.settles
  have hruns : extendRuns rl.runs es = runsOf (s.entries ++ es) := by
    rw [h.runs_eq, extendRuns_runsOf, hcont]
  rw [append_eq he he', hcont]
  rcases eq_or_ne rl.contents [] with hnil | hcne
  · -- an empty log takes its first index from the batch
    have hz := h.first_eq_zero.mpr hnil
    rw [hcont] at hnil
    refine h.of_enqueue rfl hs rfl rfl ?_ ?_ ?_ ?_ hruns
    · rw [if_pos hz, hnil, List.nil_append, hhead]
      exact hc
    · rw [if_pos hz]
      simp [hne, hhead]
    · simp [hne]
    · intro _
      rw [if_pos hz, hnil, List.nil_append]
      simp only
      omega
  · have hz : rl.first ≠ 0 := (h.first_pos hcne).ne'
    have hla := h.last_add_one hcne
    rw [lastLogIndex, if_pos (h.last_pos hcne)] at hc hlastidx
    refine h.of_enqueue rfl hs rfl rfl ?_ ?_ ?_ ?_ hruns
    · rw [if_neg hz, ← hcont]
      exact h.contiguous.append (hla ▸ hc)
    · simp [hne, hz]
    · simp [hne]
    · intro _
      rw [if_neg hz, ← hcont, List.length_append]
      simp only
      omega

end Append

theorem Wf.exists_termAt (h : rl.Wf) (hf : rl.first ≠ 0) (hlo : rl.first ≤ i) (hhi : i ≤ rl.last) :
    ∃ t, rl.termAt i = some t := by
  by_cases hsnap : i = rl.snapMeta.lastIncludedIndex
  · refine ⟨rl.snapMeta.lastIncludedTerm, ?_⟩
    rw [termAt, if_neg (by omega), if_pos hsnap]
  · have hne := h.ne_nil_of_first hf
    have hlast := h.last_add_one hne
    rw [h.termAt_eq hlo hhi hne hsnap, List.getElem?_eq_getElem (by omega)]
    exact ⟨_, rfl⟩

structure SuffixCut (rl : RaftLog ι) (i : Nat) (rl' : RaftLog ι) : Prop where
  w : rl'.w = rl.w.enqueue ⟨rl.nextSeq + 1, .truncateSuffix i, rl'.queuedDurable⟩
  snapMeta : rl'.snapMeta = rl.snapMeta
  first : rl'.first = if i = rl.first then 0 else rl.first
  last : rl'.last = if i = rl.first then 0 else i - 1
  runs : rl'.runs = if i = rl.first then [] else truncateRunsFrom rl.runs i
  segs : rl'.segs = (dropSegsFrom i rl.segs.reverse).reverse
  nextSeq : rl'.nextSeq = rl.nextSeq + 1
  durable : rl'.durable = rl.durable
  queuedDurable : rl'.queuedDurable = min (i - 1) rl.queuedDurable
  lastTerm_of_lt : rl.first < i → rl.termAt (i - 1) = some rl'.lastTerm
  lastTerm_of_eq : i = rl.first → rl'.lastTerm = rl.snapMeta.lastIncludedTerm

structure PrefixCut (rl : RaftLog ι) (i : Nat) (rl' : RaftLog ι) : Prop where
  w : rl'.w = rl.w.enqueue ⟨rl.nextSeq + 1, .truncatePrefix i, rl'.queuedDurable⟩
  snapMeta : rl'.snapMeta = rl.snapMeta
  first : rl'.first = if rl.last < i then 0 else i
  last : rl'.last = if rl.last < i then 0 else rl.last
  runs : rl'.runs = if rl.last < i then [] else truncateRunsBelow rl.runs i
  segs : rl'.segs = dropSegsBelow i rl.segs
  nextSeq : rl'.nextSeq = rl.nextSeq + 1
  durable : rl'.durable = rl.durable
  lastTerm : rl'.lastTerm =
    if rl.last < i then rl.snapMeta.lastIncludedTerm else rl.lastTerm

section Truncate

variable [Sized ι] {rl : RaftLog ι} {i : Nat}

theorem exists_suffixCut (h : rl.Wf) (hf : rl.first ≠ 0) (hlo : rl.first ≤ i)
    (hhi : i ≤ rl.last + 1) : ∃ rl', rl.truncateSuffix i = some rl' ∧ SuffixCut rl i rl' := by
  have hd : (if 0 < i ∧ i - 1 < rl.queuedDurable then i - 1 else rl.queuedDurable) =
      min (i - 1) rl.queuedDurable := by
    split_ifs <;> omega
  obtain ⟨rl', hrl'⟩ : ∃ rl', rl.truncateSuffix i = some rl' := by
    unfold truncateSuffix
    by_cases hcond : rl.first < i ∧ 0 < i - 1
    · obtain ⟨t, ht⟩ := h.exists_termAt (i := i - 1) hf (by omega) (by omega)
      simp only [if_pos hcond, ht, Option.map_some]
      exact ⟨_, rfl⟩
    · simp only [if_neg hcond, Option.map_some]
      exact ⟨_, rfl⟩
  refine ⟨rl', hrl', ?_⟩
  simp only [truncateSuffix, dropUnstableFrom, shrinkSegs, enqueue, hd,
    Option.map_eq_some_iff] at hrl'
  obtain ⟨t, ht, rfl⟩ := hrl'
  rcases Nat.eq_or_lt_of_le hlo with heq | hlt
  · constructor <;> simp [heq]
  · rw [if_pos ⟨hlt, by omega⟩] at ht
    rw [if_neg (by omega)]
    constructor <;> simp [hlt.ne', ht]

theorem truncatePrefix_of_le (h : rl.first ≠ 0 ∧ i ≤ rl.first) : rl.truncatePrefix i = rl := by
  rw [truncatePrefix, if_pos h]

theorem prefixCut (h : ¬ (rl.first ≠ 0 ∧ i ≤ rl.first)) :
    PrefixCut rl i (rl.truncatePrefix i) := by
  rw [truncatePrefix, if_neg h]
  by_cases hlast : rl.last < i <;>
    constructor <;> simp [hlast, enqueue, dropUnstableBelow, shrinkSegs]

end Truncate

/-- **Truncating the suffix** at an index of the log keeps the entries below. -/
theorem SuffixCut.spec (hcut : SuffixCut rl i rl') (h : rl.Wf) (hf : rl.first ≠ 0)
    (hlo : rl.first ≤ i) (hhi : i ≤ rl.last + 1) :
    rl'.Wf ∧ rl'.contents = rl.contents.take (i - rl.first) := by
  obtain ⟨s, hs, -, hcont⟩ := h.settles
  have hne := h.ne_nil_of_first hf
  have hlast := h.last_add_one hne
  have hexec : s.truncateSuffix i = some { s with entries := s.entries.take (i - rl.first) } :=
    Store.truncateSuffix_eq (hcont ▸ h.contiguous) hlo
  refine h.of_enqueue hcut.w hs hexec (by simp [hcont]) ?_ ?_ ?_ ?_ ?_
  · rw [hcut.first]
    split_ifs with heq
    · rw [heq, Nat.sub_self, List.take_zero]
      exact Contiguous.nil 0
    · exact h.contiguous.take _
  · rw [hcut.first, List.take_eq_nil_iff]
    split_ifs with heq
    · simp [heq]
    · simp [hne, hf]
      omega
  · rw [hcut.last, List.take_eq_nil_iff]
    rintro (h0 | h0)
    · rw [if_pos (by omega)]
    · exact absurd h0 hne
  · intro hne'
    have hlt : i ≠ rl.first := by
      rintro rfl
      simp at hne'
    rw [hcut.last, hcut.first, if_neg hlt, if_neg hlt, List.length_take]
    omega
  · rw [hcut.runs, h.runs_eq]
    split_ifs with heq
    · simp [heq]
    · exact truncateRunsFrom_runsOf h.contiguous hlo (by omega)

theorem PrefixCut.spec (hcut : PrefixCut rl i rl') (h : rl.Wf)
    (hi : ¬ (rl.first ≠ 0 ∧ i ≤ rl.first)) :
    rl'.Wf ∧ rl'.contents = rl.contents.drop (i - rl.first) := by
  obtain ⟨s, hs, -, hcont⟩ := h.settles
  have hexec : s.exec rl.w.commits (.truncatePrefix i) =
      some { s with entries := s.entries.drop (i - rl.first) } := by
    rw [Store.exec, Store.truncatePrefix_eq i (hcont ▸ h.contiguous)]
  have hentries : ({ s with entries := s.entries.drop (i - rl.first) } : Store ι).entries =
      rl.contents.drop (i - rl.first) := by
    rw [hcont]
  rcases eq_or_ne (rl.contents.drop (i - rl.first)) [] with hempty | hne'
  · obtain ⟨hfirst, hlast, hruns⟩ : rl'.first = 0 ∧ rl'.last = 0 ∧ rl'.runs = [] := by
      rw [hcut.first, hcut.last, hcut.runs]
      split_ifs with hlt
      · exact ⟨rfl, rfl, rfl⟩
      · -- an empty log ends at 0, so only the position before the log is left for `i`
        have hnil : rl.contents = [] := by
          by_contra hne
          have := h.last_add_one hne
          rw [List.drop_eq_nil_iff] at hempty
          omega
        have hzero := h.last_eq_zero hnil
        refine ⟨by omega, hzero, ?_⟩
        rw [h.runs_eq, hnil]
        rfl
    rw [hempty] at hentries ⊢
    exact h.of_enqueue hcut.w hs hexec hentries (Contiguous.nil _) (by simp [hfirst]) (fun _ => hlast)
      (fun hne => absurd rfl hne) hruns
  · have hne : rl.contents ≠ [] := fun hnil => hne' (by rw [hnil, List.drop_nil])
    have hla := h.last_add_one hne
    have hpos := h.first_pos hne
    have hlt := hne'
    rw [Ne, List.drop_eq_nil_iff] at hlt
    have hfirst : rl'.first = i := by rw [hcut.first, if_neg (by omega)]
    have hlast : rl'.last = rl.last := by rw [hcut.last, if_neg (by omega)]
    refine h.of_enqueue hcut.w hs hexec hentries ?_ ?_ (fun hnil => absurd hnil hne') ?_ ?_
    · have := h.contiguous.drop (i - rl.first)
      rwa [show rl.first + (i - rl.first) = rl'.first by omega] at this
    · simp only [hfirst, hne', iff_false]
      omega
    · intro _
      rw [List.length_drop]
      omega
    · rw [hcut.runs, if_neg (by omega), h.runs_eq]
      exact truncateRunsBelow_runsOf h.contiguous (by omega) (by omega)

/-- **Truncating the prefix** drops the entries below an index. -/
theorem truncatePrefix_spec [Sized ι] (h : rl.Wf) (i : Nat) :
    (rl.truncatePrefix i).Wf ∧ (rl.truncatePrefix i).contents = rl.contents.drop (i - rl.first) := by
  by_cases hnop : rl.first ≠ 0 ∧ i ≤ rl.first
  · rw [truncatePrefix_of_le hnop, Nat.sub_eq_zero_of_le hnop.2, List.drop_zero]
    exact ⟨h, rfl⟩
  · exact (prefixCut hnop).spec h hnop

theorem truncatePrefix_lastTerm [Sized ι] (h : rl.Wf) (hne : rl.contents.drop (i - rl.first) ≠ []) :
    (rl.truncatePrefix i).lastTerm = rl.lastTerm := by
  by_cases hnop : rl.first ≠ 0 ∧ i ≤ rl.first
  · rw [truncatePrefix_of_le hnop]
  · have hlast := h.last_add_one (by rintro hnil; simp [hnil] at hne)
    rw [Ne, List.drop_eq_nil_iff] at hne
    rw [(prefixCut hnop).lastTerm, if_neg (by omega)]

/-- What is left of the log when a snapshot becomes its base. -/
def survivors (rl : RaftLog ι) (position : SnapshotMeta) : List (LogEntry ι) :=
  if rl.termAt position.lastIncludedIndex = some position.lastIncludedTerm then
    rl.contents.drop (position.lastIncludedIndex + 1 - rl.first)
  else []

theorem rebase_spec (h : rl.Wf) (position : SnapshotMeta) :
    ∃ rl', (if rl.last = 0 then
        { rl with snapMeta := position, first := 0, lastTerm := position.lastIncludedTerm,
                  runs := [] }
      else { rl with snapMeta := position }) = rl' ∧ rl'.Wf ∧ rl'.contents = rl.contents ∧
      rl'.snapMeta = position ∧
      rl'.lastTerm = if rl.contents = [] then position.lastIncludedTerm else rl.lastTerm := by
  refine ⟨_, rfl, ?_⟩
  rcases eq_or_ne rl.contents [] with hnil | hne
  · rw [if_pos (h.last_eq_zero hnil), if_pos hnil]
    refine ⟨h.of_contents_eq h.running h.stages rfl (h.first_eq_zero.mpr hnil).symm rfl ?_, rfl,
      rfl, rfl⟩
    rw [h.runs_eq, hnil, runsOf_nil]
  · have hlast := h.last_pos hne
    rw [if_neg (by omega), if_neg hne]
    exact ⟨h.of_contents_eq h.running h.stages rfl rfl rfl rfl, rfl, rfl, rfl⟩

/-- **Installing a snapshot** keeps the entries behind it when the log agrees with
it, and nothing otherwise. -/
theorem installSnapshot_spec [Sized ι] (h : rl.Wf) (position : SnapshotMeta) :
    ∃ rl', rl.installSnapshot position = some rl' ∧ rl'.Wf ∧
      rl'.contents = rl.survivors position ∧ rl'.snapMeta = position ∧
      rl'.lastTerm =
        if rl.survivors position = [] then position.lastIncludedTerm else rl.lastTerm := by
  -- whatever is kept, the snapshot then becomes its base
  obtain ⟨kept, hkept, hwf, hc, hterm⟩ : ∃ kept : RaftLog ι,
      (if rl.termAt position.lastIncludedIndex = some position.lastIncludedTerm then
          some (rl.truncatePrefix (position.lastIncludedIndex + 1))
        else if rl.first ≠ 0 then rl.truncateSuffix rl.first else some rl) = some kept ∧
      kept.Wf ∧ kept.contents = rl.survivors position ∧
      (kept.contents ≠ [] → kept.lastTerm = rl.lastTerm) := by
    unfold survivors
    split_ifs with hagree hfirst
    · obtain ⟨hwf, hc⟩ := truncatePrefix_spec h (position.lastIncludedIndex + 1)
      refine ⟨_, rfl, hwf, hc, fun hne => truncatePrefix_lastTerm h ?_⟩
      rwa [hc] at hne
    · have hlast := h.first_le_last (h.ne_nil_of_first hfirst)
      obtain ⟨kept, hkept, hcut⟩ := exists_suffixCut h hfirst le_rfl (by omega)
      obtain ⟨hwf, hc⟩ := hcut.spec h hfirst le_rfl (by omega)
      rw [Nat.sub_self, List.take_zero] at hc
      exact ⟨kept, hkept, hwf, hc, fun hne => absurd hc hne⟩
    · have hc := h.first_eq_zero.mp (not_not.mp hfirst)
      exact ⟨rl, rfl, h, hc, fun _ => rfl⟩
  obtain ⟨rl', hrl', hwf', hc', hsnap', hterm'⟩ := rebase_spec hwf position
  refine ⟨rl', ?_, hwf', hc'.trans hc, hsnap', ?_⟩
  · rw [installSnapshot, hkept, Option.map_some, ← hrl']
  · rw [hterm', hc]
    split_ifs with hnil
    · rfl
    · exact hterm (by rwa [hc])

theorem installSnapshot_queues [Sized ι] {position : SnapshotMeta} (h : rl.Wf)
    (hinst : rl.installSnapshot position = some rl') :
    rl'.w = rl.w ∨ ∃ op, rl'.w = rl.w.enqueue op := by
  obtain ⟨kept, hkept, rfl⟩ := Option.map_eq_some_iff.mp hinst
  have hw : kept.w = rl.w ∨ ∃ op, kept.w = rl.w.enqueue op := by
    split_ifs at hkept with hagree hfirst
    · cases hkept
      by_cases hnop : rl.first ≠ 0 ∧ position.lastIncludedIndex + 1 ≤ rl.first
      · exact .inl (by rw [truncatePrefix_of_le hnop])
      · exact .inr ⟨_, (prefixCut hnop).w⟩
    · have hlast := h.first_le_last (h.ne_nil_of_first hfirst)
      obtain ⟨cut, hcut, hspec⟩ := exists_suffixCut h hfirst le_rfl (by omega)
      cases hcut.symm.trans hkept
      exact .inr ⟨_, hspec.w⟩
    · exact .inl (by rw [Option.some.inj hkept])
  dsimp only
  split_ifs <;> exact hw

theorem Wf.stabilize [Sized ι] (h : rl.Wf) (d : WriteDone) :
    (rl.stabilize d).Wf ∧ (rl.stabilize d).contents = rl.contents := by
  unfold RaftLog.stabilize
  split_ifs
  · exact ⟨h, rfl⟩
  · exact ⟨h.congr rfl rfl rfl rfl, contents_congr rfl⟩

theorem Wf.exists_execute (h : rl.Wf) :
    ∃ s, rl.stage rl.w.takeCount = some s ∧ (rl.execute none).w = { rl.w with
      storage := s
      queue := rl.w.queue.drop rl.w.takeCount
      done := rl.w.done ++ rl.w.take.1.map fun op => ⟨op.seq, op.durableAfter, false⟩ } := by
  obtain ⟨s, hs, -⟩ := h.stages rl.w.takeCount
  rcases StorageWriter.execute_ok rl.w h.running.2 with ⟨s', hs', heq⟩ | ⟨hnone, -⟩
  · cases hs'.symm.trans hs
    exact ⟨s, hs, heq⟩
  · cases hnone.symm.trans hs

theorem Wf.stage_execute (h : rl.Wf) (k : Nat) :
    (rl.execute none).stage k = rl.stage (rl.w.takeCount + k) := by
  obtain ⟨s, hs, hw⟩ := h.exists_execute
  rw [stage] at hs
  rw [stage, hw, stage, List.take_add, StorageWriter.execAll_append, hs, Option.bind_some]

theorem Wf.execute (h : rl.Wf) :
    (rl.execute none).Wf ∧ (rl.execute none).contents = rl.contents := by
  obtain ⟨s, -, hw⟩ := h.exists_execute
  have hsettled : (rl.execute none).settled = rl.settled := by
    rw [← stage_of_length_le _ le_rfl, h.stage_execute, stage_of_length_le]
    rw [hw, List.length_drop]
    omega
  have hc : (rl.execute none).contents = rl.contents := by rw [contents, contents, hsettled]
  refine ⟨h.of_contents_eq (hw ▸ h.running) (fun k => ?_) hc rfl rfl rfl, hc⟩
  rw [h.stage_execute]
  exact h.stages _

theorem Wf.saveSnapshot (h : rl.Wf) (snap : Snapshot ι) :
    (rl.saveSnapshot snap).Wf ∧ (rl.saveSnapshot snap).contents = rl.contents := by
  have hstage : ∀ k, (rl.saveSnapshot snap).stage k = (rl.stage k).map (·.saveSnapshot snap) :=
    fun k => StorageWriter.execAll_saveSnapshot _ _ _ _
  have hc : (rl.saveSnapshot snap).contents = rl.contents := by
    obtain ⟨s, hs, -, hcont⟩ := h.settles
    have hsettled : (rl.saveSnapshot snap).settled = rl.settled.map (·.saveSnapshot snap) :=
      StorageWriter.execAll_saveSnapshot _ _ _ _
    rw [hs] at hsettled
    rw [contents_of_settled hsettled, hcont]
    rfl
  refine ⟨h.of_contents_eq h.running ?_ hc rfl rfl rfl, hc⟩
  intro k
  obtain ⟨s, hs, hwf⟩ := h.stages k
  exact ⟨s.saveSnapshot snap, by rw [hstage, hs]; rfl, ⟨hwf.contiguous, hwf.pos⟩⟩

def snapPosition (s : Store ι) : SnapshotMeta :=
  match s.snap with
  | some snap => snap.position
  | none => ⟨0, 0⟩

/-- What a log looks like at startup from a store. -/
structure Fresh (s : Store ι) (rl : RaftLog ι) : Prop where
  wf : rl.Wf
  contents : rl.contents = s.entries
  storage : rl.w.storage = s
  queue : rl.w.queue = []
  done : rl.w.done = []
  snapMeta : rl.snapMeta = snapPosition s
  segs : rl.segs = []
  durable : rl.durable = s.lastIndex
  queuedDurable : rl.queuedDurable = s.lastIndex
  nextSeq : rl.nextSeq = 0
  lastTerm : rl.lastTerm =
    (s.entries.getLast?.map (·.term)).getD (snapPosition s).lastIncludedTerm

theorem fresh_of_init {batch commits : Bool} (h : s.Wf) (hw : rl.w = .init s batch commits)
    (hf : rl.first = s.firstIndex) (hl : rl.last = s.lastIndex) (hr : rl.runs = runsOf s.entries)
    (hm : rl.snapMeta = snapPosition s) (hs : rl.segs = []) (hd : rl.durable = s.lastIndex)
    (hqd : rl.queuedDurable = s.lastIndex) (hn : rl.nextSeq = 0) (ht : rl.lastTerm =
      (s.entries.getLast?.map (·.term)).getD (snapPosition s).lastIncludedTerm) : Fresh s rl := by
  have hsettled : rl.settled = some s := by rw [settled, hw]; rfl
  have hc := contents_of_settled hsettled
  refine ⟨⟨by rw [hw]; exact ⟨rfl, rfl⟩, ?_, ?_, ?_, ?_, ?_, ?_⟩, hc, by rw [hw]; rfl,
    by rw [hw]; rfl, by rw [hw]; rfl, hm, hs, hd, hqd, hn, ht⟩
  · intro k
    refine ⟨s, ?_, h⟩
    rw [stage_of_length_le, hsettled]
    simp [hw, StorageWriter.init]
  all_goals rw [hc]
  · rw [hf]
    exact h.contiguous
  · rw [hf]
    constructor
    · intro hz
      by_contra hne
      have := h.pos hne
      omega
    · intro hnil
      simp [Store.firstIndex, hnil]
  · intro hnil
    rw [hl]
    simp [Store.lastIndex, hnil]
  · intro hne
    rw [hl, hf]
    exact Store.lastIndex_eq h.contiguous hne
  · exact hr

/-- **Startup** from a well-formed store succeeds, and the log is what the store
holds. -/
theorem exists_new (h : s.Wf) (batch commits : Bool) :
    ∃ rl, new s batch commits = some rl ∧ Fresh s rl := by
  rcases eq_or_ne s.entries [] with hnil | hne
  · have hlast : ¬ 0 < s.lastIndex := by simp [Store.lastIndex, hnil]
    refine ⟨_, if_neg hlast, fresh_of_init h rfl rfl rfl ?_ rfl rfl rfl rfl rfl ?_⟩
    · rw [hnil]
      rfl
    · rw [hnil]
      rfl
  · have hlast : 0 < s.lastIndex := by
      have := Store.lastIndex_eq h.contiguous hne
      have := h.pos hne
      have := List.length_pos_of_ne_nil hne
      omega
    obtain ⟨r, hr⟩ : ∃ r, (runsOf s.entries).getLast? = some r :=
      ⟨_, List.getLast?_eq_some_getLast (runsOf_ne_nil hne)⟩
    have hterm := getLast?_runsOf s.entries
    rw [hr] at hterm
    rw [new, if_pos hlast, Store.getLogEntries_all h hlast]
    simp only [show (extendRuns [] s.entries).getLast? = some r from hr]
    refine ⟨_, rfl, fresh_of_init h rfl rfl rfl rfl rfl rfl rfl rfl rfl ?_⟩
    rw [← hterm]
    rfl

theorem Fresh.of_new {batch commits : Bool} (h : s.Wf) (hnew : new s batch commits = some rl) :
    Fresh s rl := by
  obtain ⟨rl', hrl', hfresh⟩ := exists_new h batch commits
  rwa [Option.some.inj (hnew.symm.trans hrl')]

/-- The store has the property at every point of the queue. -/
def AllStages (rl : RaftLog ι) (P : Store ι → Prop) : Prop := ∀ k s, rl.stage k = some s → P s

theorem exists_stage_of_mem_kept {k : Nat} {e : LogEntry ι} (he : e ∈ rl.kept k) :
    ∃ s, rl.stage k = some s ∧ rl.kept k = s.entries := by
  unfold kept at he ⊢
  cases hs : rl.stage k with
  | none =>
    rw [hs] at he
    cases he
  | some s => exact ⟨s, rfl, rfl⟩

namespace AllStages

variable {rl rl' : RaftLog ι} {P Q : Store ι → Prop}

section

variable (h : rl.AllStages P)

include h

theorem mono (hle : ∀ s, P s → Q s) : rl.AllStages Q :=
  fun k s hs => hle s (h k s hs)

theorem congr (hstage : ∀ k, rl'.stage k = rl.stage k) : rl'.AllStages P :=
  fun k s hs => h k s ((hstage k).symm.trans hs)

theorem storage : P rl.w.storage :=
  h 0 _ (by rw [stage, List.take_zero]; rfl)

theorem settled (hs : rl.settled = some s) : P s :=
  h rl.w.queue.length s (by rw [stage_of_length_le rl le_rfl, hs])

theorem enqueue {op : WriteOp ι} (hopen : rl.w.closed = false) (hw : rl'.w = rl.w.enqueue op)
    (hnew : ∀ s, rl'.settled = some s → P s) : rl'.AllStages P := by
  intro k s hs
  rw [stage_of_enqueue hopen hw] at hs
  split_ifs at hs with hk
  · exact h k s hs
  · exact hnew s hs

theorem execute (hwf : rl.Wf) : (rl.execute none).AllStages P := by
  intro k s hs
  rw [hwf.stage_execute] at hs
  exact h _ s hs

end

theorem of_fresh (h : Fresh s rl) (hs : P s) : rl.AllStages P := by
  intro k st hst
  rw [stage, h.queue, List.take_nil, h.storage] at hst
  cases hst
  exact hs

end AllStages

end RaftLog

end Raft
