import Raft.Log.Segments

/-!
# The stable index

The event loop changes its log at once and leaves the writes to the writer; the
stable index is how far it takes storage to follow.  This module compares the overlay
with a plain log, a list of entries over a snapshot position, through every operation
and with the writer and its completions in between: up to the stable index, storage
holds the entries of the plain log.
-/

namespace Raft

variable {ι : Type} {i : Nat} {es : List (LogEntry ι)}

namespace Contiguous

theorem find?_index {f : Nat} (h : Contiguous f es) (hi : f ≤ i) :
    es.find? (·.index = i) = es[i - f]? := by
  cases hget : es[i - f]? with
  | none =>
    rw [List.find?_eq_none]
    intro e he
    have hlt := (h.index_of_mem he).2.1
    have hge := List.getElem?_eq_none_iff.mp hget
    simp only [decide_eq_true_eq]
    omega
  | some e =>
    have hidx := h (i - f) e hget
    obtain ⟨e', he'⟩ : ∃ e', es.find? (·.index = i) = some e' := by
      rw [← Option.isSome_iff_exists, List.find?_isSome]
      exact ⟨e, List.mem_of_getElem? hget, by simp only [decide_eq_true_eq]; omega⟩
    have hidx' : e'.index = i := by simpa using List.find?_some he'
    rw [he', h.eq_of_index (List.mem_of_find?_eq_some he') (List.mem_of_getElem? hget) (by omega)]

theorem find?_index_of_lt {f : Nat} (h : Contiguous f es) (hi : i < f) :
    es.find? (·.index = i) = none := by
  rw [List.find?_eq_none]
  intro e he
  have := (h.index_of_mem he).1
  simp only [decide_eq_true_eq]
  omega

end Contiguous

/-- A log as a list of entries over a snapshot position. -/
structure PlainLog (ι : Type) where
  base : SnapshotMeta
  entries : List (LogEntry ι)
  deriving DecidableEq, Repr

namespace PlainLog

def entryAt (p : PlainLog ι) (i : Nat) : Option (LogEntry ι) := p.entries.find? (·.index = i)

/-- The term at an index: that of the base, or of the entry there. -/
def termAt (p : PlainLog ι) (i : Nat) : Option Nat :=
  if i = 0 then some 0
  else if i = p.base.lastIncludedIndex then some p.base.lastIncludedTerm
  else (p.entryAt i).map (·.term)

def install (p : PlainLog ι) (position : SnapshotMeta) : PlainLog ι :=
  { base := position
    entries := if p.termAt position.lastIncludedIndex = some position.lastIncludedTerm then
      p.entries.filter (position.lastIncludedIndex + 1 ≤ ·.index) else [] }

end PlainLog

/-- What happens to a log between two starts. -/
inductive LogCall (ι : Type)
  | append (entries : List (LogEntry ι))
  | truncateSuffix (index : Nat)
  | truncatePrefix (index : Nat)
  | localSnapshot (position : SnapshotMeta) (trailing : Nat)
  | installSnapshot (position : SnapshotMeta)
  | saveSnapshot (snap : Snapshot ι)
  | hardState (hs : HardState ι)
  | commitIndex (index : Nat)
  | execute
  | complete

def RaftLog.complete [Sized ι] (rl : RaftLog ι) : RaftLog ι :=
  match rl.w.done with
  | [] => rl
  | d :: ds => { rl with w := { rl.w with done := ds } }.stabilize d

namespace LogCall

section Steps

variable [Sized ι]

/-- What a call does to the overlay; a refused one changes nothing. -/
def step (rl : RaftLog ι) : LogCall ι → RaftLog ι
  | append es => (rl.append es).2
  | truncateSuffix i => (rl.truncateSuffix i).getD rl
  | truncatePrefix i => rl.truncatePrefix i
  | localSnapshot position trailing => rl.compact position trailing
  | installSnapshot position => (rl.installSnapshot position).getD rl
  | saveSnapshot snap => rl.saveSnapshot snap
  | hardState hs => rl.enqueue (.hardState hs)
  | commitIndex i => rl.enqueue (.commitIndex i)
  | execute => rl.execute none
  | complete => rl.complete

def plainStep (p : PlainLog ι) : LogCall ι → PlainLog ι
  | append es => { p with entries := p.entries ++ es }
  | truncateSuffix i => { p with entries := p.entries.filter (·.index < i) }
  | truncatePrefix i => { p with entries := p.entries.filter (i ≤ ·.index) }
  | localSnapshot position trailing =>
    ⟨position, p.entries.filter (RaftLog.keepFrom position.lastIncludedIndex trailing ≤ ·.index)⟩
  | installSnapshot position => p.install position
  | saveSnapshot _ | hardState _ | commitIndex _ | execute | complete => p

def run (rl : RaftLog ι) (calls : List (LogCall ι)) : RaftLog ι := calls.foldl step rl

def plainRun (p : PlainLog ι) (calls : List (LogCall ι)) : PlainLog ι := calls.foldl plainStep p

def Made (rl : RaftLog ι) : LogCall ι → Prop
  | append es => es ≠ [] ∧ Contiguous (rl.lastLogIndex + 1) es
  | truncateSuffix i => rl.first ≠ 0 ∧ rl.first ≤ i ∧ i ≤ rl.last + 1
  | _ => True

def AllMade (rl : RaftLog ι) : List (LogCall ι) → Prop
  | [] => True
  | call :: calls => call.Made rl ∧ AllMade (call.step rl) calls

end Steps

end LogCall

namespace RaftLog

structure Refines (rl : RaftLog ι) (p : PlainLog ι) : Prop where
  wf : rl.Wf
  segmented : rl.Segmented
  contents : rl.contents = p.entries
  base : rl.snapMeta = p.base

namespace Refines

variable {rl : RaftLog ι} {p : PlainLog ι}

theorem of_fresh {s : Store ι} (h : Fresh s rl) : rl.Refines ⟨snapPosition s, s.entries⟩ :=
  ⟨h.wf, .of_fresh h, h.contents, h.snapMeta⟩

theorem termAt_eq (h : rl.Refines p) (i : Nat) : rl.termAt i = p.termAt i := by
  have hc : Contiguous rl.first p.entries := h.contents ▸ h.wf.contiguous
  have hfound := h.wf.termAt_eq (i := i)
  rw [termAt] at hfound
  rw [termAt, PlainLog.termAt, PlainLog.entryAt, ← h.base]
  split_ifs at hfound ⊢ with hzero hsnap hout
  · rfl
  · rfl
  · -- no entry of the log has such an index
    refine (Option.map_eq_none_iff.mpr (List.find?_eq_none.mpr fun e he => ?_)).symm
    have hidx := hc.index_of_mem he
    have hne : rl.contents ≠ [] := h.contents ▸ List.ne_nil_of_mem he
    have hfirst := h.wf.first_pos hne
    have hlast := h.wf.last_add_one hne
    rw [h.contents] at hlast
    simp only [decide_eq_true_eq]
    omega
  · have hne := h.wf.ne_nil_of_first (by omega)
    rw [hfound (by omega) (by omega) hne hsnap, h.contents, hc.find?_index (by omega)]

section Steps

variable [Sized ι]

theorem append (h : rl.Refines p) (hne : es ≠ []) (hc : Contiguous (rl.lastLogIndex + 1) es) :
    (rl.append es).2.Refines { p with entries := p.entries ++ es } := by
  obtain ⟨hwf, hcontents⟩ := append_spec h.wf hne hc
  exact ⟨hwf, h.segmented.append h.wf hne hc, by rw [hcontents, h.contents],
    append_snapMeta.trans h.base⟩

theorem truncateSuffix (h : rl.Refines p) (hf : rl.first ≠ 0) (hlo : rl.first ≤ i)
    (hhi : i ≤ rl.last + 1) :
    ∃ rl', rl.truncateSuffix i = some rl' ∧
      rl'.Refines { p with entries := p.entries.filter (·.index < i) } := by
  obtain ⟨rl', hrl', hcut⟩ := exists_suffixCut h.wf hf hlo hhi
  obtain ⟨hwf, hcontents⟩ := hcut.spec h.wf hf hlo hhi
  refine ⟨rl', hrl', hwf, h.segmented.suffixCut h.wf hcut hf hlo hhi, ?_, hcut.snapMeta.trans h.base⟩
  rw [hcontents, ← h.wf.contiguous.filter_lt, h.contents]

theorem truncatePrefix (h : rl.Refines p) (i : Nat) :
    (rl.truncatePrefix i).Refines { p with entries := p.entries.filter (i ≤ ·.index) } := by
  obtain ⟨hwf, hcontents⟩ := truncatePrefix_spec h.wf i
  rw [← h.wf.contiguous.filter_ge, h.contents] at hcontents
  by_cases hnop : rl.first ≠ 0 ∧ i ≤ rl.first
  · rw [truncatePrefix_of_le hnop] at hcontents hwf ⊢
    exact ⟨hwf, h.segmented, hcontents, h.base⟩
  · have hcut := prefixCut hnop
    exact ⟨hwf, h.segmented.prefixCut h.wf hcut hnop, hcontents, hcut.snapMeta.trans h.base⟩

omit [Sized ι] in
theorem rebase {rl' : RaftLog ι} (h : rl.Refines p) (position : SnapshotMeta) (hwf : rl'.Wf)
    (hw : rl'.w = rl.w) (hsegs : rl'.segs = rl.segs) (hnext : rl'.nextSeq = rl.nextSeq)
    (hsnap : rl'.snapMeta = position) : rl'.Refines { p with base := position } :=
  ⟨hwf, h.segmented.congr hw hsegs hnext, (contents_congr hw).trans h.contents, hsnap⟩

theorem installSnapshot (h : rl.Refines p) (position : SnapshotMeta) :
    ∃ rl', rl.installSnapshot position = some rl' ∧ rl'.Refines (p.install position) := by
  -- what is kept of the log, before the snapshot becomes its base
  obtain ⟨kept, hkept, hrefines⟩ : ∃ kept : RaftLog ι,
      (if rl.termAt position.lastIncludedIndex = some position.lastIncludedTerm then
          some (rl.truncatePrefix (position.lastIncludedIndex + 1))
        else if rl.first ≠ 0 then rl.truncateSuffix rl.first else some rl) = some kept ∧
      kept.Refines { p with entries := (p.install position).entries } := by
    unfold PlainLog.install
    rw [h.termAt_eq]
    split_ifs with hagree hfirst
    · exact ⟨_, rfl, h.truncatePrefix _⟩
    · have hlast := h.wf.first_le_last (h.wf.ne_nil_of_first hfirst)
      obtain ⟨kept, hkept, hrefines⟩ := h.truncateSuffix hfirst le_rfl (by omega)
      refine ⟨kept, hkept, ?_⟩
      have hc : Contiguous rl.first p.entries := h.contents ▸ h.wf.contiguous
      rwa [hc.filter_lt, Nat.sub_self, List.take_zero] at hrefines
    · have hnil := h.wf.first_eq_zero.mp (not_not.mp hfirst)
      rw [h.contents] at hnil
      exact ⟨rl, rfl, h.wf, h.segmented, h.contents.trans hnil, h.base⟩
  obtain ⟨rl', hrl', hwf', -, hsnap', -⟩ := rebase_spec hrefines.wf position
  refine ⟨rl', ?_, ?_⟩
  · rw [RaftLog.installSnapshot, hkept, Option.map_some, ← hrl']
  · refine hrefines.rebase position hwf' ?_ ?_ ?_ hsnap'
    all_goals
      rw [← hrl']
      split_ifs <;> rfl

section

variable (h : rl.Refines p)

include h

omit [Sized ι] in
theorem collect {ds : List WriteDone} (hds : ∀ d ∈ ds, d ∈ rl.w.done) :
    ({ rl with w := { rl.w with done := ds } } : RaftLog ι).Refines p :=
  ⟨⟨h.wf.running, h.wf.stages, h.wf.contiguous, h.wf.first_eq_zero, h.wf.last_eq_zero,
    h.wf.last_add_one, h.wf.runs_eq⟩,
    ⟨h.segmented.split, h.segmented.held, h.segmented.segs_sorted, h.segmented.segs_le,
      h.segmented.queue_sorted, h.segmented.queue_le,
      fun d hd => h.segmented.done_lt d (hds d hd)⟩,
    h.contents, h.base⟩

theorem stabilize {d : WriteDone} (hd : ∀ op ∈ rl.w.queue, d.seq < op.seq) :
    (rl.stabilize d).Refines p := by
  obtain ⟨hwf, hcontents⟩ := h.wf.stabilize d
  refine ⟨hwf, h.segmented.stabilize hd, hcontents.trans h.contents, ?_⟩
  unfold RaftLog.stabilize
  split_ifs <;> exact h.base

theorem complete : rl.complete.Refines p := by
  unfold RaftLog.complete
  split
  · exact h
  · rename_i d ds hdone
    have hrest : ∀ d' ∈ ds, d' ∈ rl.w.done := fun d' hd' => hdone ▸ List.mem_cons_of_mem d hd'
    refine (h.collect hrest).stabilize ?_
    exact (h.segmented.done_lt d (hdone ▸ List.mem_cons_self)).2

/-- **Every call acts on the overlay as on the plain log.** -/
theorem step {call : LogCall ι} (hmade : call.Made rl) :
    (call.step rl).Refines (call.plainStep p) := by
  cases call with
  | append es => exact h.append hmade.1 hmade.2
  | truncateSuffix i =>
    obtain ⟨rl', hrl', h'⟩ := h.truncateSuffix hmade.1 hmade.2.1 hmade.2.2
    rw [LogCall.step, hrl']
    exact h'
  | truncatePrefix i => exact h.truncatePrefix i
  | localSnapshot position trailing =>
    have h' := h.truncatePrefix (keepFrom position.lastIncludedIndex trailing)
    exact h'.rebase position (h'.wf.congr rfl rfl rfl rfl) rfl rfl rfl rfl
  | installSnapshot position =>
    obtain ⟨rl', hrl', h'⟩ := h.installSnapshot position
    rw [LogCall.step, hrl']
    exact h'
  | saveSnapshot snap =>
    obtain ⟨hwf, hcontents⟩ := h.wf.saveSnapshot snap
    exact ⟨hwf, h.segmented.saveSnapshot h.wf snap, hcontents.trans h.contents, h.base⟩
  | hardState hs =>
    obtain ⟨hwf, hcontents⟩ := h.wf.enqueue_hardState hs
    exact ⟨hwf, h.segmented.enqueue_frame h.wf.running.1 hcontents, hcontents.trans h.contents,
      h.base⟩
  | commitIndex i =>
    obtain ⟨hwf, hcontents⟩ := h.wf.enqueue_commitIndex i
    exact ⟨hwf, h.segmented.enqueue_frame h.wf.running.1 hcontents, hcontents.trans h.contents,
      h.base⟩
  | execute =>
    obtain ⟨hwf, hcontents⟩ := h.wf.execute
    exact ⟨hwf, h.segmented.execute h.wf, hcontents.trans h.contents, h.base⟩
  | complete => exact h.complete

theorem run {calls : List (LogCall ι)} (hmade : LogCall.AllMade rl calls) :
    (LogCall.run rl calls).Refines (LogCall.plainRun p calls) := by
  induction calls generalizing rl p with
  | nil => exact h
  | cons call calls ih => exact ih (h.step hmade.1) hmade.2

end

end Steps

end Refines

/-- Above the base and up to the stable index, storage has exactly the entries of the plain log. -/
structure StableSound (rl : RaftLog ι) (p : PlainLog ι) : Prop where
  held : ∀ i e, p.base.lastIncludedIndex < i → i ≤ rl.stableIndex → p.entryAt i = some e →
    rl.w.storage.getLogEntries i (i + 1) = some [e]
  present : ∀ i, p.base.lastIncludedIndex < i → i ≤ rl.stableIndex → rl.first ≤ i →
    (p.entryAt i).isSome = true

theorem Refines.stableSound {rl : RaftLog ι} {p : PlainLog ι} (h : rl.Refines p) :
    rl.StableSound p := by
  have hc : Contiguous rl.first p.entries := h.contents ▸ h.wf.contiguous
  -- An index above the base and up to the stable index lies in the log.
  have hrange : ∀ i, p.base.lastIncludedIndex < i → i ≤ rl.stableIndex →
      rl.contents ≠ [] ∧ i ≤ rl.last ∧ (rl.unstableFirst ≠ 0 → i < rl.unstableFirst) := by
    intro i hbase hle
    rw [← h.base] at hbase
    simp only [stableIndex, lastLogIndex] at hle
    have hlast : 0 < rl.last := by
      by_contra hzero
      rw [if_neg hzero] at hle
      omega
    refine ⟨fun hnil => ?_, ?_, fun hus => ?_⟩
    · have := h.wf.last_eq_zero hnil
      omega
    · rw [if_pos hlast] at hle
      omega
    · split_ifs at hle <;> omega
  refine ⟨fun i e hbase hle he => ?_, fun i hbase hle hfirst => ?_⟩
  · obtain ⟨hne, hlast, hus⟩ := hrange i hbase hle
    have hfirst : rl.first ≤ i := by
      by_contra hlt
      rw [PlainLog.entryAt, hc.find?_index_of_lt (by omega)] at he
      cases he
    have hread := h.segmented.getLogEntries_eq h.wf (h.wf.first_pos hne).ne' hfirst
      (Nat.lt_add_one i) (by omega) (by omega)
    rw [PlainLog.entryAt, hc.find?_index hfirst] at he
    rw [hread, h.contents, Nat.add_sub_cancel_left, List.take_one, List.head?_drop, he]
    rfl
  · obtain ⟨hne, hlast, -⟩ := hrange i hbase hle
    have hlen := h.wf.last_add_one hne
    rw [h.contents] at hlen
    rw [PlainLog.entryAt, hc.find?_index hfirst, List.getElem?_eq_getElem (by omega)]
    rfl

end RaftLog

namespace LogCall

variable [Sized ι]

/-- **The stable index is sound**: storage has the entries up to it, however far the writer
is. -/
theorem stableSound_run {s : Store ι} (hs : s.Wf) {batch commits : Bool} {rl : RaftLog ι}
    (hnew : RaftLog.new s batch commits = some rl) {calls : List (LogCall ι)}
    (hmade : AllMade rl calls) :
    (run rl calls).StableSound (plainRun ⟨RaftLog.snapPosition s, s.entries⟩ calls) := by
  exact ((RaftLog.Refines.of_fresh (.of_new hs hnew)).run hmade).stableSound

/-- The second of two entries is replaced, and only the truncation reported: the new one is
not stable. -/
theorem stableSound_replaced :
    (run ((RaftLog.new (Store.empty : Store Nat) true true).get rfl)
      [.append [⟨1, 1, .noop⟩, ⟨2, 1, .user [1]⟩], .execute, .complete, .truncateSuffix 2,
        .append [⟨2, 2, .user [2]⟩], .execute, .complete]).StableSound
      (plainRun ⟨⟨0, 0⟩, []⟩ [.append [⟨1, 1, .noop⟩, ⟨2, 1, .user [1]⟩], .execute, .complete,
        .truncateSuffix 2, .append [⟨2, 2, .user [2]⟩], .execute, .complete]) :=
  stableSound_run (s := Store.empty) ⟨Contiguous.nil _, fun h => absurd rfl h⟩ rfl
    ⟨⟨by decide, (Contiguous.singleton ⟨1, 1, .noop⟩).append (Contiguous.singleton _)⟩, trivial,
      trivial, ⟨by decide, by decide, by decide⟩, ⟨by decide, Contiguous.singleton _⟩, trivial,
      trivial, trivial⟩

end LogCall

end Raft
